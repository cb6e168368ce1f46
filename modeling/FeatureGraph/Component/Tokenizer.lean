-- The tokenizer: a stream of bytes parted into words at blank space. A word
-- that a chunk cuts is carried over, so where the chunks are cut does not
-- show.
import FeatureGraph.Component.Basic
import FeatureGraph.Text.Blank

namespace FeatureGraph.Component

namespace Tokenizer

/-- What is read of a stream: the words that a blank byte has ended, the last one first, and
the bytes of the present word, the last one first. -/
structure Reading where
  words : List Bytes
  present : Bytes
deriving DecidableEq, Repr

/-- Reads one byte. -/
def Reading.step (r : Reading) (b : UInt8) : Reading :=
  if Text.isBlankByte b then
    if r.present.isEmpty then r else ⟨r.present.reverse :: r.words, []⟩
  else { r with present := b :: r.present }

/-- Reads bytes on from a present word. -/
def read (present bs : Bytes) : Reading := bs.foldl Reading.step ⟨[], present⟩

/-- The text of a word. -/
def wordText (bs : Bytes) : Except ComponentError String :=
  match Text.decode bs with
  | .ok s => .ok s
  | .error fault => .error (.codec (.utf8 fault))

/-- The texts of words, or the fault of the first that has one. -/
def wordTexts : List Bytes → Except ComponentError (List String)
  | [] => .ok []
  | bs :: rest =>
    match wordText bs with
    | .error e => .error e
    | .ok s => (wordTexts rest).map (s :: ·)

/-- Takes in bytes after the present word: the words that are complete, and the present word
now. -/
def feed (present more : Bytes) : Except ComponentError Output × Bytes :=
  let r := read present more
  match wordTexts r.words.reverse with
  | .error e => (.error e, r.present)
  | .ok [] => (.ok [], r.present)
  | .ok ws => (.ok [.ok (.words ws)], r.present)

/-- The present word when the bytes end. -/
def flush (present : Bytes) : Except ComponentError Output :=
  if present.isEmpty then .ok []
  else (wordText present.reverse).map fun s => [.ok (.words [s])]

end Tokenizer

/-- Parts a stream of bytes into words. Each chunk that completes words puts them out as one
list. -/
def tokenizer {W : Type} : Component W where
  State := Bytes
  start := []
  transform data present w :=
    match data.bytes? with
    | none => (.error (.unexpectedPayload "bytes or string"), present, w)
    | some bs =>
      let (out, present) := Tokenizer.feed present bs
      (out, present, w)
  lastChunk present w := (Tokenizer.flush present, [], w)

end FeatureGraph.Component
