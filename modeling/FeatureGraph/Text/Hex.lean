-- Numbers in hexadecimal. A number is written with a fixed count of digits,
-- so the order of the numbers is the order of their texts.

namespace FeatureGraph.Text

/-- The small hexadecimal digit of a number below sixteen. -/
def hexDigit (n : Nat) : Char := if n < 10 then Char.ofNat (48 + n) else Char.ofNat (87 + n)

/-- The last `width` hexadecimal digits of a number, zeros in front. -/
def hexFixed : Nat → Nat → List Char
  | 0, _ => []
  | width + 1, n => hexFixed width (n / 16) ++ [hexDigit (n % 16)]

/-- The value of a hexadecimal digit, small or capital. -/
def hexValue? (c : Char) : Option Nat :=
  if '0' ≤ c ∧ c ≤ '9' then some (c.toNat - 48)
  else if 'a' ≤ c ∧ c ≤ 'f' then some (c.toNat - 87)
  else if 'A' ≤ c ∧ c ≤ 'F' then some (c.toNat - 55)
  else none

/-- Reads digits after a number that is already read. -/
def readHexFrom (n : Nat) : List Char → Option Nat
  | [] => some n
  | c :: rest =>
    match hexValue? c with
    | some d => readHexFrom (n * 16 + d) rest
    | none => none

/-- The number that hexadecimal digits write; there must be one digit at least. -/
def readHex : List Char → Option Nat
  | [] => none
  | c :: rest => readHexFrom 0 (c :: rest)

@[simp] theorem length_hexFixed (width n : Nat) : (hexFixed width n).length = width := by
  induction width generalizing n with
  | zero => rfl
  | succ width ih => simp [hexFixed, ih]

theorem hexValue?_hexDigit {n : Nat} (h : n < 16) : hexValue? (hexDigit n) = some n := by
  have : ∀ m : Fin 16, hexValue? (hexDigit m) = some m.val := by decide
  exact this ⟨n, h⟩

theorem readHexFrom_append (n : Nat) (a b : List Char) :
    readHexFrom n (a ++ b) = (readHexFrom n a).bind (readHexFrom · b) := by
  induction a generalizing n with
  | nil => rfl
  | cons c rest ih =>
    simp only [List.cons_append, readHexFrom]
    cases hexValue? c with
    | none => rfl
    | some d => exact ih _

theorem readHexFrom_hexFixed (width m n : Nat) :
    readHexFrom m (hexFixed width n) = some (m * Nat.pow 16 width + n % Nat.pow 16 width) := by
  induction width generalizing m n with
  | zero => simp [hexFixed, readHexFrom, Nat.mod_one]
  | succ width ih =>
    have hd : n % 16 < 16 := Nat.mod_lt _ (by decide)
    rw [hexFixed, readHexFrom_append, ih, Option.bind_some, readHexFrom, hexValue?_hexDigit hd]
    simp only [readHexFrom, Option.some.injEq, Nat.pow_eq, Nat.pow_succ']
    rw [Nat.mod_mul, Nat.mul_left_comm]
    omega

end FeatureGraph.Text
