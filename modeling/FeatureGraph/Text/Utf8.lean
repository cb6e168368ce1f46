-- UTF-8. Text is written as bytes, and bytes are read as text, or refused
-- with the place of the first fault. Reading what was written gives it back.
import FeatureGraph.Bytes

namespace FeatureGraph.Text

/-- The UTF-8 bytes of a text. -/
def encode (s : String) : Bytes := s.toUTF8.data.toList

/-! ## Faults -/

/-- Where bytes stop being UTF-8: after `index` good bytes. A bad sequence has a width; a
sequence that the end of the input cuts off has none. -/
structure Utf8Fault where
  index : Nat
  width : Option Nat
deriving DecidableEq, Repr

/-- Says where the fault is. -/
def Utf8Fault.message (f : Utf8Fault) : String :=
  match f.width with
  | some w => s!"invalid utf-8 sequence of {w} bytes from index {f.index}"
  | none => s!"incomplete utf-8 byte sequence from index {f.index}"

/-- How a run of bytes begins. -/
inductive Opening where
  /-- A character of this many bytes. -/
  | whole (width : Nat)
  /-- A sequence that no character has, this many bytes wide. -/
  | broken (width : Nat)
  /-- The start of a character that the input ends within. -/
  | cut
deriving DecidableEq, Repr

/-- A byte that can follow the first of a character. -/
def isTail (b : UInt8) : Bool := 0x80 ≤ b && b ≤ 0xBF

/-- The second bytes that may follow a first byte: the ranges leave out characters written
too long, surrogates, and values past the last character. -/
def secondRange (first : UInt8) : UInt8 × UInt8 :=
  if first = 0xE0 then (0xA0, 0xBF)
  else if first = 0xED then (0x80, 0x9F)
  else if first = 0xF0 then (0x90, 0xBF)
  else if first = 0xF4 then (0x80, 0x8F)
  else (0x80, 0xBF)

/-- How many bytes a character has that begins with this byte; none begins with a byte that
has no width. -/
def widthOf (first : UInt8) : Option Nat :=
  if first < 0x80 then some 1
  else if 0xC2 ≤ first && first ≤ 0xDF then some 2
  else if 0xE0 ≤ first && first ≤ 0xEF then some 3
  else if 0xF0 ≤ first && first ≤ 0xF4 then some 4
  else none

/-- Goes through the tail bytes of a character of which `seen` bytes are read. -/
def tails (seen : Nat) : Nat → Bytes → Opening
  | 0, _ => .whole seen
  | _ + 1, [] => .cut
  | missing + 1, b :: rest => if isTail b then tails (seen + 1) missing rest else .broken seen

/-- How the bytes `first :: rest` begin. -/
def opening (first : UInt8) (rest : Bytes) : Opening :=
  match widthOf first with
  | none => .broken 1
  | some 1 => .whole 1
  | some width =>
    match rest with
    | [] => .cut
    | second :: more =>
      let (low, high) := secondRange first
      if low ≤ second && second ≤ high then tails 2 (width - 2) more else .broken 1

/-- The first fault of the bytes, if they have one; `index` bytes came before, and the next
`skip` bytes belong to a character that is already read. -/
def faultFrom (index : Nat) : (skip : Nat) → Bytes → Option Utf8Fault
  | _, [] => none
  | skip + 1, _ :: rest => faultFrom (index + 1) skip rest
  | 0, b :: rest =>
    match opening b rest with
    | .whole width => faultFrom (index + 1) (width - 1) rest
    | .broken width => some ⟨index, some width⟩
    | .cut => some ⟨index, none⟩

/-- The first fault of the bytes, if they are not UTF-8. -/
def fault? (bs : Bytes) : Option Utf8Fault := faultFrom 0 0 bs

/-! ## Reading -/

/-- The text that the bytes write, if they are UTF-8. -/
def decode? (bs : Bytes) : Option String := String.fromUTF8? ⟨bs.toArray⟩

/-- The text that the bytes write, or the place of their first fault. -/
def decode (bs : Bytes) : Except Utf8Fault String :=
  match decode? bs with
  | some s => .ok s
  | none => .error ((fault? bs).getD ⟨0, none⟩)

theorem decode?_encode (s : String) : decode? (encode s) = some s := by
  have h : (⟨(encode s).toArray⟩ : ByteArray) = s.toByteArray := by
    simp [encode, String.toUTF8]
  unfold decode?
  rw [h]
  rw [String.fromUTF8?, dif_pos s.isValidUTF8]
  rfl

@[simp] theorem decode_encode (s : String) : decode (encode s) = .ok s := by
  simp [decode, decode?_encode]

/-- Reads bytes as text with U+FFFD in place of every faulty sequence. -/
def decodeLossy : Bytes → String
  | [] => ""
  | b :: rest =>
    match decode (b :: rest) with
    | .ok s => s
    | .error f =>
      let good := (decode? ((b :: rest).take f.index)).getD ""
      match f.width with
      | none => good ++ "\uFFFD"
      | some w => good ++ "\uFFFD" ++ decodeLossy (rest.drop (f.index + (w - 1)))
termination_by bs => bs.length
decreasing_by simp only [List.length_drop, List.length_cons]; omega

end FeatureGraph.Text
