-- Blank space: the bytes that part words, and the characters that a blank
-- line may hold.

namespace FeatureGraph.Text

/-- The ASCII bytes that part words: space, tab, line feed, form feed and carriage return. -/
def isBlankByte (b : UInt8) : Bool :=
  b = 0x20 || b = 0x09 || b = 0x0A || b = 0x0C || b = 0x0D

/-- The characters of the Unicode property `White_Space`. -/
def isBlank (c : Char) : Bool :=
  let n := c.toNat
  (0x09 ≤ n && n ≤ 0x0D) || n = 0x20 || n = 0x85 || n = 0xA0 || n = 0x1680
    || (0x2000 ≤ n && n ≤ 0x200A) || n = 0x2028 || n = 0x2029 || n = 0x202F || n = 0x205F
    || n = 0x3000

/-- A line with nothing but blank space. -/
def isBlankLine (s : String) : Bool := s.toList.all isBlank

end FeatureGraph.Text
