-- Whether a decimal number lies within the range of a double. Its first
-- digits are taken as a whole number of 64 bits and the others into a power
-- of ten; both are rounded to doubles, and so is their product.
import FeatureGraph.Bytes

namespace FeatureGraph.Json

/-- The value of a decimal digit. -/
def digitValue (b : UInt8) : Nat := b.toNat - 0x30

/-- The number that decimal digits write. -/
def digitsValue (ds : Bytes) : Nat := ds.foldl (fun n b => n * 10 + digitValue b) 0

/-- Takes digits behind those of `n` for as long as the number fits into 64 bits. Gives the
number, and how many digits are left. -/
def takeDigits (n : Nat) : Bytes → Nat × Nat
  | [] => (n, 0)
  | b :: rest =>
    if n * 10 + digitValue b < Nat.pow 2 64 then takeDigits (n * 10 + digitValue b) rest
    else (n, rest.length + 1)

/-- The double nearest to a whole number, as long as doubles go that far: 53 binary digits
are kept, and a half goes to the even neighbour. -/
def nearestDouble (n : Nat) : Nat :=
  let unit := Nat.pow 2 (n.log2 + 1 - 53)
  let q := n / unit
  let r := n % unit
  if 2 * r > unit || (2 * r == unit && q % 2 == 1) then (q + 1) * unit else q * unit

/-- The greatest power of ten that is taken as one factor. -/
def greatestPower : Nat := 308

/-- Whether a whole number times a power of ten is read as a finite double. -/
def isFiniteProduct (significand : Nat) (exponent : Int) : Bool :=
  significand = 0 || exponent < 0
    || (exponent ≤ greatestPower
      && nearestDouble (nearestDouble significand * nearestDouble (Nat.pow 10 exponent.toNat)) < Nat.pow 2 1024)

/-- Whether a number is read as a finite double: digits before and after the point, and an
exponent. Digits after the point that do not fit any more are passed over. -/
def isFiniteDecimal (whole fraction : Bytes) (exponent : Int) : Bool :=
  let (n, left) := takeDigits 0 whole
  let (n, passed) := takeDigits n fraction
  isFiniteProduct n (exponent + left + passed - fraction.length)

end FeatureGraph.Json
