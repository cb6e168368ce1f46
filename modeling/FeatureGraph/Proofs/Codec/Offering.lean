-- Chunks that are offered to an encoder, which may reject some of them. The
-- caller goes on after a chunk that was rejected, so what counts is what the
-- encoder remembers of it.
import FeatureGraph.Codec.Encoder

namespace FeatureGraph.Encoder

/-- The encoder rejects the chunk. -/
def Rejects (e : Encoder) (s : e.State) (chunk : Payload) : Prop :=
  ∃ cause, (e.encode chunk s).1 = .error cause

/-- What an encoder remembers when chunks were offered to it, whether it took them or not. -/
def after (e : Encoder) (s : e.State) (offered : List Payload) : e.State :=
  offered.foldl (fun s chunk => (e.encode chunk s).2) s

/-- The chunks that an encoder takes of those that are offered. -/
def taken (e : Encoder) : (s : e.State) → (offered : List Payload) → List Payload
  | _, [] => []
  | s, chunk :: rest =>
    match e.encode chunk s with
    | (.ok _, s) => chunk :: e.taken s rest
    | (.error _, s) => e.taken s rest

/-- All the bytes that an encoder puts out when chunks are offered to it, and at the end. -/
def written (e : Encoder) : (s : e.State) → (offered : List Payload) → Except CodecError Bytes
  | s, [] => (e.finish s).1.map List.flatten
  | s, chunk :: rest =>
    match e.encode chunk s with
    | (.ok runs, s) => (e.written s rest).map (runs.flatten ++ ·)
    | (.error _, s) => e.written s rest

variable {e : Encoder} {s s' : e.State} {chunk : Payload} {runs : List Bytes}

theorem after_snoc (s : e.State) (front : List Payload) (chunk : Payload) :
    e.after s (front ++ [chunk]) = (e.encode chunk (e.after s front)).2 := by
  simp [after, List.foldl_append]

theorem taken_of_ok (h : e.encode chunk s = (.ok runs, s')) (rest : List Payload) :
    e.taken s (chunk :: rest) = chunk :: e.taken s' rest := by
  rw [taken, h]

theorem written_of_ok (h : e.encode chunk s = (.ok runs, s')) (rest : List Payload) :
    e.written s (chunk :: rest) = (e.written s' rest).map (runs.flatten ++ ·) := by
  rw [written, h]

theorem taken_of_error {cause : CodecError} (h : e.encode chunk s = (.error cause, s'))
    (rest : List Payload) : e.taken s (chunk :: rest) = e.taken s' rest := by
  rw [taken, h]

theorem written_of_error {cause : CodecError} (h : e.encode chunk s = (.error cause, s'))
    (rest : List Payload) : e.written s (chunk :: rest) = e.written s' rest := by
  rw [written, h]

theorem taken_sublist (e : Encoder) (s : e.State) (offered : List Payload) :
    (e.taken s offered).Sublist offered := by
  induction offered generalizing s with
  | nil => exact .slnil
  | cons chunk rest ih =>
    rw [taken]
    split
    · exact (ih _).cons_cons _
    · exact (ih _).cons _

end FeatureGraph.Encoder
