-- The store: bytes under keys, in memory or as the files of one folder. What
-- a writer was given is seen only when the writer is committed, and then all
-- at once.
import FeatureGraph.Dictionary
import FeatureGraph.Files.Tree
import FeatureGraph.Storage.Key

namespace FeatureGraph

/-- A value in memory and its media type. -/
structure Stored where
  contentType : String
  data : Bytes
deriving DecidableEq, Repr

/-- Where values are stored. -/
inductive Store where
  | memory (table : Dictionary Stored)
  /-- One file for each key, within a folder; the name of a file may have `room` bytes. -/
  | folder (root : Path) (room : Nat)

/-- Bytes on their way into the store. -/
structure Writer where
  key : String
  contentType : String
  /-- What it was given, latest first. -/
  parts : List Bytes
deriving DecidableEq, Repr

namespace Writer

/-- All that a writer was given, in order. -/
def data (w : Writer) : Bytes := w.parts.reverse.flatten

/-- Gives more bytes to a writer. -/
def add (w : Writer) (bs : Bytes) : Writer := { w with parts := bs :: w.parts }

theorem data_add (w : Writer) (bs : Bytes) : (w.add bs).data = w.data ++ bs := by
  simp [data, add]

end Writer

namespace Store

/-- An empty store in memory. -/
def inMemory : Store := .memory Dictionary.empty

/-- Makes the folder of a store, and gives the store. -/
def openFolder (files : FileTree) (path : String) : Except StorageError Store × FileTree :=
  match files.makeFolder path with
  | (.ok root, files) => (.ok (.folder root (FileTree.roomIn path)), files)
  | (.error e, files) => (.error (.io e), files)

/-- Whether a key can be the name of a file. Names that begin with a dot are hidden. -/
def isFileKey (key : String) : Bool :=
  key ≠ "" && !key.startsWith "." && key.toList.all fun c => c ≠ '/' && c ≠ '\\'

/-- The file of a key. -/
def filePath (root : Path) (key : String) : Except StorageError Path :=
  if isFileKey key then .ok (root ++ [key]) else .error (.malformedKey key)

/-- Opens a writer for a key. -/
def write (s : Store) (key contentType : String) : Except StorageError Writer :=
  match s with
  | .memory _ => .ok ⟨key, contentType, []⟩
  | .folder root _ => (filePath root key).map fun _ => ⟨key, contentType, []⟩

/-- Puts what a writer was given under its key. -/
def commit (s : Store) (files : FileTree) (w : Writer) : Except StorageError (Store × FileTree) :=
  match s with
  | .memory table => .ok (.memory (table.insert w.key ⟨w.contentType, w.data⟩), files)
  | .folder root room =>
    match filePath root w.key with
    | .error e => .error e
    | .ok _ =>
      match files.replaceFile root room w.key w.data with
      | .ok files => .ok (s, files)
      | .error e => .error (.io e)

/-- Opens what is stored under a key. -/
def read (s : Store) (files : FileTree) (key : String) : Except StorageError ByteSource :=
  match s with
  | .memory table =>
    match table.get? key with
    | some stored => .ok (ByteSource.ofBytes stored.data)
    | none => .error (.notFound key)
  | .folder root room =>
    match filePath root key with
    | .error e => .error e
    | .ok path =>
      match FileTree.textFault? room key with
      | some e => .error (.io e)
      | none =>
        match files.openFile path with
        | .ok source => .ok source
        | .error .notFound => .error (.notFound key)
        | .error e => .error (.io e)

/-- Whether something is stored under a key. -/
def contains (s : Store) (files : FileTree) (key : String) : Except StorageError Bool :=
  match s with
  | .memory table => .ok (table.contains key)
  | .folder root room =>
    (filePath root key).map fun path =>
      (FileTree.textFault? room key).isNone && files.isFile path

/-- Every key, in order. -/
def keys (s : Store) (files : FileTree) : List String :=
  match s with
  | .memory table => table.keys
  | .folder root _ =>
    let shown := (files.fileNames root).filter fun name => !name.startsWith "."
    (Dictionary.ofList (shown.map fun name => (name, ()))).keys

/-- Keeps the first of equal texts. -/
def distinct (seen : List String) : List String → List String
  | [] => []
  | x :: rest => if x ∈ seen then distinct seen rest else x :: distinct (x :: seen) rest

/-- The ids of the keys that come apart, each once, in the order of their keys. -/
def ids (s : Store) (files : FileTree) (scheme : KeyScheme) : List String :=
  distinct [] <| (s.keys files).filterMap fun key =>
    match scheme.decompose key with
    | .ok (id, _) => some id
    | .error _ => none

/-- What is stored: key, bytes, and the media type where the store keeps it. -/
def dump (s : Store) (files : FileTree) : List (String × Bytes × Option String) :=
  match s with
  | .memory table => table.toList.map fun e => (e.1, e.2.data, some e.2.contentType)
  | .folder root _ =>
    (s.keys files).map fun key =>
      match files.lookup (root ++ [key]) with
      | some (.file content) => (key, content, none)
      | _ => (key, [], none)

end Store

end FeatureGraph
