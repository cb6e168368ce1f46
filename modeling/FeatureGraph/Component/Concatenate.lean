-- Concatenation: the bytes of every provider, one provider after the other.
import FeatureGraph.Component.Basic

namespace FeatureGraph.Component

namespace Concatenate

/-- Puts a payload into the buffer of its provider; missing buffers are made. -/
def push (data : Payload) : (input : Nat) → List (List Payload) → List (List Payload)
  | 0, [] => [[data]]
  | 0, buffer :: rest => (data :: buffer) :: rest
  | input + 1, [] => [] :: push data input []
  | input + 1, buffer :: rest => buffer :: push data input rest

/-- The bytes of payloads, joined. -/
def join : List Payload → Except ComponentError Bytes
  | [] => .ok []
  | data :: rest =>
    match data.bytes? with
    | none => .error (.unexpectedPayload "bytes or string")
    | some bs => (join rest).map (bs ++ ·)

end Concatenate

/-- What a concatenation holds: a buffer for each provider, latest first, and whether they were
put out. -/
structure Buffered where
  buffers : List (List Payload)
  emitted : Bool

/-- Joins the bytes of its providers in the order of the needs, however they came in. It puts
them out once. -/
def concatenate {W : Type} : Component W where
  State := Buffered
  start := ⟨[], false⟩
  enqueue data input s cache w :=
    ({ s with buffers := Concatenate.push data input s.buffers }, cache, w)
  dequeue _ s cache w :=
    if s.emitted then (none, s, cache, w)
    else (some (.inputs (s.buffers.map (·.reverse))), ⟨[], true⟩, cache, w)
  transform data s w :=
    match data with
    | .inputs buffers =>
      ((Concatenate.join buffers.flatten).map fun bs => [.ok (.bytes bs)], s, w)
    | _ => (.error (.unexpectedPayload "buffered inputs"), s, w)

end FeatureGraph.Component
