-- Lower case of text. Each character has its own small form, but a capital
-- sigma at the end of a word takes the final form.
import FeatureGraph.Text.CaseTable

namespace FeatureGraph.Text

/-- Whether the character is cased: a letter that is small, capital or title. -/
def isCased (c : Char) : Bool := inRanges casedRanges c.toNat

/-- Whether casing looks through the character, as through an accent or an apostrophe. -/
def isCaseIgnorable (c : Char) : Bool := inRanges caseIgnorableRanges c.toNat

/-- The small form of one character; only the capital I with a dot has two characters. -/
def lowerChar (c : Char) : List Char :=
  if c.toNat < 0x80 then [c.toLower]
  else if c.toNat = 0x130 then ['i', '\u0307']
  else [((caseRuns.findSome? (·.lower? c.toNat)).map Char.ofNat).getD c]

/-- Whether the first of these characters that casing does not look through is cased. -/
def startsCased (cs : List Char) : Bool :=
  match cs.dropWhile isCaseIgnorable with
  | [] => false
  | c :: _ => isCased c

/-- Lower case of the characters after `before`, which stands in reverse. A capital sigma
with a cased character before it and none after it is final. -/
def lowerFrom (before : List Char) : List Char → List Char
  | [] => []
  | c :: rest =>
    let small :=
      if c = 'Σ' then if startsCased before && !startsCased rest then ['ς'] else ['σ']
      else lowerChar c
    small ++ lowerFrom (c :: before) rest

/-- A text in lower case. -/
def lower (s : String) : String := String.ofList (lowerFrom [] s.toList)

end FeatureGraph.Text
