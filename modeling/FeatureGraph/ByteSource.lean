-- Sources of bytes. A source may give fewer bytes than a read asks for, and
-- it may fail on the way. What is gathered from it depends on neither how
-- many bytes each read gave nor how they were cut.
import FeatureGraph.Bytes
import FeatureGraph.Files.Error

namespace FeatureGraph

/-- Bytes that are read from front to back. -/
structure ByteSource where
  /-- The bytes not yet given. -/
  rest : Bytes
  /-- The most that each read gives, by its number; a read without a bound gives all that is
  asked for, and a bound of zero acts as one. -/
  bound : Nat → Option Nat
  /-- How many reads there were. -/
  reads : Nat
  /-- How many bytes are still given before a read fails, and how it fails. -/
  fault : Option (Nat × IoError)

namespace ByteSource

/-- A source that gives all its bytes without fail. -/
def ofBytes (bs : Bytes) : ByteSource := ⟨bs, fun _ => none, 0, none⟩

/-- A source whose first read fails. -/
def failing (e : IoError) : ByteSource := ⟨[], fun _ => none, 0, some (0, e)⟩

/-- The source that fails after so many bytes, if it does not fail before. -/
def failAfter (s : ByteSource) (count : Nat) (e : IoError) : ByteSource :=
  match s.fault with
  | none => { s with fault := some (count, e) }
  | some (k, first) => { s with fault := some (if count < k then (count, e) else (k, first)) }

/-- How many bytes the next read gives at most when `want` are asked for. -/
def grant (s : ByteSource) (want : Nat) : Nat :=
  let n := match s.bound s.reads with
    | none => want
    | some k => min want (max 1 k)
  match s.fault with
  | none => n
  | some (k, _) => min n k

/-- One read: at least one byte unless the source has ended, at most `want`. -/
def read (s : ByteSource) (want : Nat) : Except IoError (Bytes × ByteSource) :=
  match s.fault with
  | some (0, e) => .error e
  | _ =>
    let got := s.rest.take (s.grant want)
    .ok (got, { s with
      rest := s.rest.drop (s.grant want)
      reads := s.reads + 1
      fault := s.fault.map fun (k, e) => (k - got.length, e) })

/-- Reads until `want` bytes are there or the source ends, after the bytes in `done`, which
stand in reverse. Each read gives a byte at least, so `want` reads are enough. -/
def gather : (fuel want : Nat) → (done : Bytes) → ByteSource → Except IoError (Bytes × ByteSource)
  | 0, _, done, s => .ok (done.reverse, s)
  | fuel + 1, want, done, s =>
    if want = 0 then .ok (done.reverse, s)
    else
      match s.read want with
      | .error e => .error e
      | .ok ([], s) => .ok (done.reverse, s)
      | .ok (b :: bs, s) => gather fuel (want - (bs.length + 1)) ((b :: bs).reverse ++ done) s

/-- The next `want` bytes, or fewer if the source ends before. -/
def readUpTo (s : ByteSource) (want : Nat) : Except IoError (Bytes × ByteSource) :=
  gather want want [] s

/-- The next `want` bytes, and a failure if the source ends before. -/
def readExactly (s : ByteSource) (want : Nat) : Except IoError (Bytes × ByteSource) :=
  match s.readUpTo want with
  | .error e => .error e
  | .ok (bs, s) => if bs.length < want then .error .tooShort else .ok (bs, s)

/-- All the bytes; the end is seen only by a read that gives none. -/
def readAll (s : ByteSource) : Except IoError Bytes :=
  match s.readUpTo (s.rest.length + 1) with
  | .error e => .error e
  | .ok (bs, _) => .ok bs

/-- Goes through the source in pieces, `fuel` of them at most. -/
def piecesFrom : (fuel size : Nat) → ByteSource → List (Except IoError Bytes)
  | 0, _, _ => []
  | fuel + 1, size, s =>
    match s.readUpTo size with
    | .error e => [.error e]
    | .ok ([], _) => []
    | .ok (b :: bs, s) => .ok (b :: bs) :: piecesFrom fuel size s

/-- The bytes in pieces of `size`, the last one perhaps shorter; a size of zero acts as one.
A failure ends the pieces, and what was read of the piece before it is lost. -/
def pieces (s : ByteSource) (size : Nat) : List (Except IoError Bytes) :=
  piecesFrom (s.rest.length + 1) (max 1 size) s

end ByteSource

end FeatureGraph
