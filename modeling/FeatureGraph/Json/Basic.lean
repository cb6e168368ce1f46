-- JSON documents. An object keeps its members in the order of their keys,
-- and holds each key once.
import FeatureGraph.Dictionary

namespace FeatureGraph

/-- A JSON document. -/
inductive Json where
  | null
  | bool (b : Bool)
  /-- A whole number that fits into 64 bits, with or without a sign. -/
  | int (n : Int)
  /-- Any other number, as it was written. -/
  | decimal (literal : String)
  | string (s : String)
  | array (items : List Json)
  | object (members : List (String × Json))
deriving Inhabited

namespace Json

/-- An object of the given members; of two with one key, the later stays. -/
def ofMembers (members : List (String × Json)) : Json := .object (Dictionary.ofList members).toList

/-- The object that holds a number under each key. -/
def ofCounts (counts : Dictionary Nat) : Json :=
  .object (counts.toList.map fun e => (e.1, .int e.2))

/-- The array of texts. -/
def ofWords (words : List String) : Json := .array (words.map .string)

/-- A whole number without a sign, as long as it fits into 64 bits. -/
def toCount? : Json → Option Nat
  | .int n => if 0 ≤ n ∧ n < Nat.pow 2 64 then some n.toNat else none
  | _ => none

/-- The text of a string. -/
def toText? : Json → Option String
  | .string s => some s
  | _ => none

end Json

end FeatureGraph
