-- Runs of bytes. Here: numbers written low byte first, and a run cut into
-- pieces of one size. Reading a number back gives the number that was
-- written, and the pieces joined give the run that was cut.

namespace FeatureGraph

/-- A run of bytes, first byte first. -/
abbrev Bytes := List UInt8

namespace Bytes

/-! ## Numbers, low byte first -/

/-- The `size` low bytes of `value`, low byte first. -/
def ofNat : Nat → Nat → Bytes
  | 0, _ => []
  | size + 1, value => UInt8.ofNat value :: ofNat size (value / 256)

/-- The number that the bytes spell, low byte first. -/
def toNat : Bytes → Nat
  | [] => 0
  | b :: rest => b.toNat + 256 * toNat rest

@[simp] theorem length_ofNat (size value : Nat) : (ofNat size value).length = size := by
  induction size generalizing value with
  | zero => rfl
  | succ size ih => simp [ofNat, ih]

theorem toNat_lt (bs : Bytes) : toNat bs < Nat.pow 256 bs.length := by
  induction bs with
  | nil => simp [toNat]
  | cons b rest ih =>
    have hb := b.toNat_lt
    simp only [toNat, List.length_cons, Nat.pow_eq, Nat.pow_succ] at ih ⊢
    omega

theorem toNat_ofNat (size value : Nat) : toNat (ofNat size value) = value % Nat.pow 256 size := by
  induction size generalizing value with
  | zero => simp [ofNat, toNat, Nat.mod_one]
  | succ size ih =>
    have hlow : (UInt8.ofNat value).toNat = value % 256 := UInt8.toNat_ofNat'
    rw [ofNat, toNat, ih, hlow, Nat.pow_eq, Nat.pow_eq, Nat.pow_succ', Nat.mod_mul]

theorem ofNat_toNat (bs : Bytes) : ofNat bs.length (toNat bs) = bs := by
  induction bs with
  | nil => rfl
  | cons b rest ih =>
    have hb := b.toNat_lt
    have hdiv : (b.toNat + 256 * toNat rest) / 256 = toNat rest := by omega
    have hlow : UInt8.ofNat (b.toNat + 256 * toNat rest) = b := by
      apply UInt8.toNat_inj.mp
      rw [UInt8.toNat_ofNat']
      omega
    simp only [List.length_cons, ofNat, toNat, hdiv, hlow, ih]

/-! ## Pieces of one size -/

/-- The run cut into pieces of `size` bytes; the last may be shorter, and a size of zero
acts as one. -/
def pieces (size : Nat) (bs : Bytes) : List Bytes :=
  match bs with
  | [] => []
  | b :: rest => (b :: rest.take (size - 1)) :: pieces size (rest.drop (size - 1))
termination_by bs.length
decreasing_by simp only [List.length_drop, List.length_cons]; omega

theorem flatten_pieces (size : Nat) (bs : Bytes) : (pieces size bs).flatten = bs := by
  fun_induction pieces size bs with
  | case1 => rfl
  | case2 b rest ih => simp [ih]

end Bytes

end FeatureGraph
