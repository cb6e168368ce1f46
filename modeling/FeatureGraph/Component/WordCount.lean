-- Word counts: how often each word occurs in the whole input, in lower case.
import FeatureGraph.Component.Basic
import FeatureGraph.Text.Lowercase

namespace FeatureGraph.Component

namespace WordCount

/-- Counts one word. -/
def countWord (table : Dictionary Nat) (word : String) : Dictionary Nat :=
  let small := Text.lower word
  table.insert small ((table.get? small).getD 0 + 1)

/-- Counts the words of every payload; a payload is a list of words or one word. -/
def countAll (table : Dictionary Nat) : List Payload → Except ComponentError (Dictionary Nat)
  | [] => .ok table
  | .words ws :: rest => countAll (ws.foldl countWord table) rest
  | .text w :: rest => countAll (countWord table w) rest
  | _ :: _ => .error (.unexpectedPayload "Vec<String> or String")

end WordCount

/-- What a component holds that gathers its whole input: what has come, latest first, and
whether it was put out. -/
structure Gathered where
  items : List Payload
  emitted : Bool

/-- Counts the words of all that has come. It puts out one table, once. -/
def wordCount {W : Type} : Component W where
  State := Gathered
  start := ⟨[], false⟩
  enqueue data _ s cache w := ({ s with items := data :: s.items }, cache, w)
  dequeue _ s cache w :=
    if s.emitted then (none, s, cache, w)
    else (some (.batch s.items.reverse), ⟨[], true⟩, cache, w)
  transform data s w :=
    match data with
    | .batch items =>
      ((WordCount.countAll Dictionary.empty items).map fun table => [.ok (.counts table)], s, w)
    | _ => (.error (.unexpectedPayload "word batches"), s, w)

end FeatureGraph.Component
