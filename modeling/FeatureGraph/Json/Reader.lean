-- Reading whole JSON documents: any document, a table of counts, a list of
-- words, or a record with named fields.
import FeatureGraph.Json.Grammar

namespace FeatureGraph.Json

/-- What a reader gives for the whole input; only blanks may follow. -/
def complete {α : Type} (scan : Scan α) (bs : Bytes) : Option α :=
  match scan bs with
  | some (a, rest) => if skipBlanks rest = [] then some a else none
  | none => none

/-- The document that the bytes write. -/
def parse? (bs : Bytes) : Option Json := complete (value kept nestingLimit) bs

/-- What stands between the braces of an object: its members in the order they are written,
with keys that stand twice. -/
def objectMembers (item : String → Scan Json) : Scan (List (String × Json)) := fun bs =>
  match skipBlanks bs with
  | [] => none
  | b :: rest => if b = 0x7B then members (member keptString item) rest else none

/-- What stands between the brackets of an array. -/
def arrayItems : Scan (List Json) := fun bs =>
  match skipBlanks bs with
  | [] => none
  | b :: rest => if b = 0x5B then items (value kept (nestingLimit - 1)) rest else none

/-- A table of counts: an object of whole numbers. Every member has to be a count, also one
whose key comes again. -/
def parseCounts? (bs : Bytes) : Option (Dictionary Nat) := do
  let ms ← complete (objectMembers fun _ => value kept (nestingLimit - 1)) bs
  let counts ← ms.mapM fun m => m.2.toCount?.map fun n => (m.1, n)
  return Dictionary.ofList counts

/-- A list of words: an array of strings. -/
def parseWords? (bs : Bytes) : Option (List String) := do
  let js ← complete arrayItems bs
  js.mapM toText?

/-! ## Records -/

/-- A member of a record: one of its fields, or a member to pass over. -/
def fieldItem (fields : List String) (key : String) : Scan Json := fun bs =>
  if key ∈ fields then value kept (nestingLimit - 1) bs else value passed bs.length bs

/-- The values of a record's fields, in the order of `fields`. It is an object with every
field once, or the array of the values; an object may have other members. -/
def parseRecord? (fields : List String) (bs : Bytes) : Option (List Json) :=
  match complete arrayItems bs with
  | some js => if js.length = fields.length then some js else none
  | none =>
    match complete (objectMembers (fieldItem fields)) bs with
    | none => none
    | some ms =>
      fields.mapM fun f =>
        match ms.filter (·.1 = f) with
        | [m] => some m.2
        | _ => none

end FeatureGraph.Json
