-- The workspace: what the components of a graph share. It holds the files,
-- the store and the event log, streams that wait to be read, the buffers of
-- captures, and a trace. What comes from outside, the time and chance, is
-- given in advance.
import FeatureGraph.Component.Call
import FeatureGraph.EventLog.Basic
import FeatureGraph.Storage.EntityId
import FeatureGraph.Storage.Store

namespace FeatureGraph

/-- Which operations on the store are made to fail, and how. -/
structure Faults where
  /-- A writer for this key cannot be opened. -/
  opening : String → Option IoError
  /-- A write to this writer fails. -/
  writing : Writer → Option IoError
  /-- A writer for this key cannot be committed. -/
  committing : String → Option IoError
  /-- Reading this key fails after so many bytes. -/
  reading : String → Option (Nat × IoError)

/-- No operation is made to fail. -/
def Faults.none : Faults :=
  ⟨fun _ => .none, fun _ => .none, fun _ => .none, fun _ => .none⟩

/-- The readings of the clock and the random numbers of 64 bits, in the order they are
drawn. -/
structure Supply where
  clock : Nat → Int
  random : Nat → Nat
  /-- How many readings and numbers are drawn. -/
  read : Nat
  drawn : Nat

/-- What the components of a graph share. -/
structure Workspace where
  files : FileTree
  store : Store
  faults : Faults
  log : Option EventLog
  /-- Streams that wait to be read; each is read once. -/
  streams : List (Option ByteSource)
  /-- What each capture was given, latest first. -/
  captures : List (List Bytes)
  supply : Supply
  /-- The calls of traced components with their labels, latest first. -/
  trace : List (String × Call)

namespace Workspace

/-- A workspace over a store, without an event log. -/
def new (files : FileTree) (store : Store) (supply : Supply) : Workspace :=
  ⟨files, store, Faults.none, none, [], [], supply, []⟩

/-- How a workspace is shown. -/
def shown (w : Workspace) : String :=
  s!"Persistence \x7b event_log: {w.log.isSome}, .. \x7d"

/-! ## The store -/

/-- Opens a writer for a key. -/
def openWriter (w : Workspace) (key contentType : String) : Except StorageError Writer :=
  match w.faults.opening key with
  | some e => .error (.io e)
  | none => w.store.write key contentType

/-- Gives bytes to a writer; without bytes nothing is done. -/
def writeTo (w : Workspace) (writer : Writer) (bs : Bytes) : Except IoError Writer :=
  if bs.isEmpty then .ok writer
  else
    match w.faults.writing writer with
    | some e => .error e
    | none => .ok (writer.add bs)

/-- Puts what a writer was given under its key. -/
def commit (w : Workspace) (writer : Writer) : Except StorageError Unit × Workspace :=
  match w.faults.committing writer.key with
  | some e => (.error (.io e), w)
  | none =>
    match w.store.commit w.files writer with
    | .ok (store, files) => (.ok (), { w with store := store, files := files })
    | .error e => (.error e, w)

/-- Opens what is stored under a key. -/
def read (w : Workspace) (key : String) : Except StorageError ByteSource :=
  match w.store.read w.files key, w.faults.reading key with
  | .ok source, some (count, e) => .ok (source.failAfter count e)
  | .ok source, none => .ok source
  | .error e, _ => .error e

/-- Whether something is stored under a key. -/
def contains (w : Workspace) (key : String) : Except StorageError Bool :=
  w.store.contains w.files key

/-! ## Time and chance -/

/-- The time now, in microseconds. -/
def now (w : Workspace) : Int × Workspace :=
  (w.supply.clock w.supply.read, { w with supply := { w.supply with read := w.supply.read + 1 } })

/-- A random number of 64 bits. -/
def random (w : Workspace) : Nat × Workspace :=
  (w.supply.random w.supply.drawn,
    { w with supply := { w.supply with drawn := w.supply.drawn + 1 } })

/-- The id of a new entity. -/
def newId (w : Workspace) (source : IdSource) (inputs : Inputs) :
    Except IdError String × Workspace :=
  match source with
  | .input key => (IdSource.fromInput key inputs, w)
  | .random =>
    let (high, w) := w.random
    let (low, w) := w.random
    (.ok (IdSource.randomId high low), w)

/-! ## The event log -/

/-- Adds an event to the log and sends it; without a log nothing is done. -/
def announce (w : Workspace) (data : Json) : Except EventLogError Unit × Workspace :=
  match w.log with
  | none => (.ok (), w)
  | some log =>
    let (now, w) := w.now
    let (suffix, w) := w.random
    let (result, log, files) := log.append w.files data now suffix
    (result.map fun _ => (), { w with log := some log, files := files })

/-! ## Streams and captures -/

/-- Puts a source aside to be read later, and gives the payload that names it. -/
def holdStream (w : Workspace) (source : ByteSource) : Payload × Workspace :=
  (.stored w.streams.length, { w with streams := w.streams ++ [some source] })

/-- Takes a source that was put aside; it can be taken once. -/
def takeStream (w : Workspace) (stream : Nat) : Option ByteSource × Workspace :=
  (w.streams[stream]?.join, { w with streams := w.streams.set stream none })

/-- A new buffer for a capture. -/
def newCapture (w : Workspace) : Nat × Workspace :=
  (w.captures.length, { w with captures := w.captures ++ [[]] })

/-- Adds bytes to a capture's buffer. -/
def capture (w : Workspace) (slot : Nat) (bs : Bytes) : Workspace :=
  { w with captures := w.captures.modify slot (bs :: ·) }

/-- What a capture holds. -/
def captured (w : Workspace) (slot : Nat) : Bytes :=
  (w.captures[slot]?.getD []).reverse.flatten

/-! ## The trace -/

/-- Notes a call of a traced component. -/
def note (w : Workspace) (label : String) (call : Call) : Workspace :=
  { w with trace := (label, call) :: w.trace }

end Workspace

end FeatureGraph
