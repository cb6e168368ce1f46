-- How a JSON document is written: on one line without blanks, or spread over
-- lines with two spaces for each level.
import FeatureGraph.Json.Basic
import FeatureGraph.Text.Hex

namespace FeatureGraph.Json

/-! ## Strings -/

/-- One character within a string. Quotes, backslashes and controls are escaped. -/
def escapeChar (c : Char) : List Char :=
  if c = '\x22' then ['\\', '\x22']
  else if c = '\\' then ['\\', '\\']
  else if c = '\x08' then ['\\', 'b']
  else if c = '\x0c' then ['\\', 'f']
  else if c = '\n' then ['\\', 'n']
  else if c = '\r' then ['\\', 'r']
  else if c = '\t' then ['\\', 't']
  else if c.toNat < 0x20 then ['\\', 'u'] ++ Text.hexFixed 4 c.toNat
  else [c]

/-- A string in double quotes. -/
def stringChars (s : String) : List Char :=
  '\x22' :: s.toList.flatMap escapeChar ++ ['\x22']

/-- The decimal digits of a whole number, with a minus sign below zero. -/
def intChars : Int → List Char
  | .ofNat n => Nat.toDigits 10 n
  | .negSucc n => '-' :: Nat.toDigits 10 (n + 1)

/-! ## On one line -/

mutual

/-- The characters of a document, on one line. -/
def chars : Json → List Char
  | .null => ['n', 'u', 'l', 'l']
  | .bool true => ['t', 'r', 'u', 'e']
  | .bool false => ['f', 'a', 'l', 's', 'e']
  | .int n => intChars n
  | .decimal literal => literal.toList
  | .string s => stringChars s
  | .array items => '[' :: itemChars items ++ [']']
  | .object members => '\x7b' :: memberChars members ++ ['\x7d']

/-- Items with commas between them. -/
def itemChars : List Json → List Char
  | [] => []
  | [item] => chars item
  | item :: rest => chars item ++ ',' :: itemChars rest

/-- Members with commas between them. -/
def memberChars : List (String × Json) → List Char
  | [] => []
  | [(key, item)] => stringChars key ++ ':' :: chars item
  | (key, item) :: rest => stringChars key ++ ':' :: chars item ++ ',' :: memberChars rest

end

/-- A document on one line. -/
def print (j : Json) : String := String.ofList (chars j)

/-! ## Over several lines -/

/-- A line break and the blanks of a level. -/
def indent (level : Nat) : List Char := '\n' :: List.replicate (2 * level) ' '

mutual

/-- The characters of a document spread over lines, its first line at a level. -/
def spreadChars (level : Nat) : Json → List Char
  | .array [] => ['[', ']']
  | .array (item :: rest) =>
    '[' :: spreadItems (level + 1) (item :: rest) ++ indent level ++ [']']
  | .object [] => ['\x7b', '\x7d']
  | .object (m :: rest) =>
    '\x7b' :: spreadMembers (level + 1) (m :: rest) ++ indent level ++ ['\x7d']
  | .null => chars .null
  | .bool b => chars (.bool b)
  | .int n => chars (.int n)
  | .decimal literal => chars (.decimal literal)
  | .string s => chars (.string s)

/-- Items, each on a line of its own. -/
def spreadItems (level : Nat) : List Json → List Char
  | [] => []
  | [item] => indent level ++ spreadChars level item
  | item :: rest => indent level ++ spreadChars level item ++ ',' :: spreadItems level rest

/-- Members, each on a line of its own. -/
def spreadMembers (level : Nat) : List (String × Json) → List Char
  | [] => []
  | [(key, item)] => indent level ++ stringChars key ++ [':', ' '] ++ spreadChars level item
  | (key, item) :: rest =>
    indent level ++ stringChars key ++ [':', ' '] ++ spreadChars level item
      ++ ',' :: spreadMembers level rest

end

/-- A document spread over lines. -/
def printSpread (j : Json) : String := String.ofList (spreadChars 0 j)

end FeatureGraph.Json
