-- The components that a feature's node is joined to: its encoder, the writer
-- that stores it, the capture that keeps it in memory, and the replay that
-- reads it back.
import FeatureGraph.Codec.Decoder
import FeatureGraph.Codec.Encoder
import FeatureGraph.Component.Basic
import FeatureGraph.Workspace

namespace FeatureGraph.Component

/-- Encodes the chunks of a feature; each run of bytes is a chunk of its own. -/
def encoding {W : Type} (e : Encoder) : Component W where
  State := e.State
  start := e.start
  transform data s w :=
    let (result, s) := e.encode data s
    match result with
    | .ok runs => (.ok (Output.ofBytes runs), s, w)
    | .error e => (.error (.codec e), s, w)
  lastChunk s w :=
    let (result, s) := e.finish s
    match result with
    | .ok runs => (.ok (Output.ofBytes runs), s, w)
    | .error e => (.error (.codec e), s, w)

/-! ## Writing to the store -/

/-- What is written where: a storage key, and what the event log is told. -/
structure Destination where
  key : String
  id : String
  feature : String
  contentType : String
deriving DecidableEq, Repr

/-- What the event log is told when a feature is stored. -/
def Destination.announcement (d : Destination) : Json :=
  Json.ofMembers
    [("_id", .string d.id), ("name", .string d.feature), ("content_type", .string d.contentType)]

/-- A writer's session: the open writer, and whether all of the input has come. -/
structure Session where
  writer : Option Writer
  finished : Bool

/-- Writes bytes to the store. The writer is opened for a run. It is committed at the end only
if all of the input has come, and then the event log is told. -/
def storing (d : Destination) : Component Workspace where
  State := Session
  start := ⟨none, false⟩
  acquire s w :=
    match w.openWriter d.key d.contentType with
    | .ok writer => (.ok (), ⟨some writer, false⟩, w)
    | .error e => (.error (.storage e), { s with finished := false }, w)
  transform data s w :=
    match data.bytes? with
    | none => (.error (.unexpectedPayload "encoded bytes"), s, w)
    | some bs =>
      match s.writer with
      | none => (.error (.failed s!"writer for '{d.key}' is not open"), s, w)
      | some writer =>
        match w.writeTo writer bs with
        | .ok writer => (.ok [], { s with writer := some writer }, w)
        | .error e => (.error (.io e), s, w)
  lastChunk s w := (.ok [], { s with finished := true }, w)
  release s w :=
    match s.writer with
    | none => (.ok (), s, w)
    | some writer =>
      let s := { s with writer := none }
      if s.finished then
        match w.commit writer with
        | (.error e, w) => (.error (.storage e), s, w)
        | (.ok (), w) =>
          match w.announce d.announcement with
          | (.ok (), w) => (.ok (), s, w)
          | (.error e, w) => (.error (.eventLog e), s, w)
      else (.ok (), s, w)

/-! ## Captures and replays -/

/-- Keeps bytes in a buffer of the workspace. -/
def capture (slot : Nat) : Component Workspace where
  State := Unit
  start := ()
  transform data s w :=
    match data.bytes? with
    | some bs => (.ok [], s, w.capture slot bs)
    | none => (.error (.unexpectedPayload "encoded bytes"), s, w)

/-- Reads a stored stream and puts it out as if the feature were worked out afresh. -/
def replay (d : Decoder) : Component Workspace where
  State := Unit
  start := ()
  transform data s w :=
    match data with
    | .stored stream =>
      match w.takeStream stream with
      | (none, w) => (.error (.failed "stored stream already consumed"), s, w)
      | (some source, w) =>
        match d.stream source with
        | .ok out => (.ok out, s, w)
        | .error e => (.error (.codec e), s, w)
    | _ => (.error (.unexpectedPayload "StoredStream"), s, w)

/-! ## Traces -/

/-- Notes every call of a component in the trace, under a label. -/
def traced (label : String) (c : Component Workspace) : Component Workspace where
  State := c.State
  start := c.start
  enqueue data input s cache w := c.enqueue data input s cache (w.note label (.enqueue input data))
  dequeue finalized s cache w :=
    let (got, s, cache, w) := c.dequeue finalized s cache w
    (got, s, cache, w.note label (.dequeue finalized got.isSome))
  transform data s w := c.transform data s (w.note label (.transform data))
  lastChunk s w := c.lastChunk s (w.note label .lastChunk)
  acquire s w := c.acquire s (w.note label .acquire)
  release s w := c.release s (w.note label .release)

end FeatureGraph.Component
