-- Arrays of numbers with any count of axes. The elements stand in row-major
-- order, each as the bits of its number, and there are as many as the shape
-- has places.
import FeatureGraph.Bytes

namespace FeatureGraph

/-! ## Element types -/

/-- A type of element: its kind, signed, unsigned or float, and its width in bytes. -/
inductive Dtype where
  | u1 | i1 | u2 | i2 | u4 | i4 | u8 | i8 | f4 | f8
deriving DecidableEq, Repr, Inhabited

namespace Dtype

/-- The width of an element in bytes. -/
def size : Dtype → Nat
  | .u1 | .i1 => 1
  | .u2 | .i2 => 2
  | .u4 | .i4 | .f4 => 4
  | .u8 | .i8 | .f8 => 8

/-- The name of the type within a stored array: the byte order, the kind and the width. -/
def tag : Dtype → String
  | .u1 => "|u1"
  | .i1 => "|i1"
  | .u2 => "<u2"
  | .i2 => "<i2"
  | .u4 => "<u4"
  | .i4 => "<i4"
  | .u8 => "<u8"
  | .i8 => "<i8"
  | .f4 => "<f4"
  | .f8 => "<f8"

/-- Every element type. -/
def all : List Dtype := [.u1, .i1, .u2, .i2, .u4, .i4, .u8, .i8, .f4, .f8]

theorem size_pos (t : Dtype) : 0 < t.size := by cases t <;> decide

end Dtype

/-- An element: its bits, as a number below the bound that its width sets. -/
abbrev Element (t : Dtype) := Fin (Nat.pow 256 t.size)

namespace Element

/-- The bytes of an element, low byte first. -/
def toBytes {t : Dtype} (x : Element t) : Bytes := Bytes.ofNat t.size x.val

/-- The element whose bits are the low bits of a number. -/
def ofBits (t : Dtype) (n : Nat) : Element t :=
  ⟨n % Nat.pow 256 t.size, Nat.mod_lt _ (Nat.pow_pos (by decide))⟩

/-- The element that bytes spell, low byte first. -/
def ofBytes (t : Dtype) (bs : Bytes) : Element t := ofBits t (Bytes.toNat bs)

@[simp] theorem length_toBytes {t : Dtype} (x : Element t) : x.toBytes.length = t.size := by
  simp [toBytes]

@[simp] theorem ofBytes_toBytes {t : Dtype} (x : Element t) : ofBytes t x.toBytes = x := by
  apply Fin.ext
  simp only [ofBytes, ofBits, toBytes, Bytes.toNat_ofNat]
  rw [Nat.mod_mod, Nat.mod_eq_of_lt x.isLt]

theorem toBytes_ofBytes {t : Dtype} {bs : Bytes} (h : bs.length = t.size) :
    (ofBytes t bs).toBytes = bs := by
  have hlt : Bytes.toNat bs < Nat.pow 256 t.size := h ▸ Bytes.toNat_lt bs
  simp only [ofBytes, ofBits, toBytes, Nat.mod_eq_of_lt hlt]
  rw [← h]
  exact Bytes.ofNat_toNat bs

end Element

/-! ## Shapes -/

/-- How many places a shape has. -/
def volume (shape : List Nat) : Nat := shape.foldr (· * ·) 1

/-- The product of the axes that are not zero. -/
def nonzeroVolume (shape : List Nat) : Nat := volume (shape.filter (· ≠ 0))

/-- The indices of the places of a shape in row-major order. -/
def indices : List Nat → List (List Nat)
  | [] => [[]]
  | n :: shape => (List.range n).flatMap fun i => (indices shape).map (i :: ·)

/-- How far an index lies from the first place in memory, with the stride of each axis. -/
def distance : (strides : List Int) → (index : List Nat) → Int
  | stride :: strides, i :: index => i * stride + distance strides index
  | _, _ => 0

/-- The strides with which the places of a shape stand one after another, in row-major order. -/
def rowStrides : List Nat → List Int
  | [] => []
  | _ :: shape => volume shape :: rowStrides shape

@[simp] theorem volume_nil : volume [] = 1 := rfl

@[simp] theorem volume_cons (n : Nat) (shape : List Nat) :
    volume (n :: shape) = n * volume shape := rfl

@[simp] theorem length_indices (shape : List Nat) : (indices shape).length = volume shape := by
  induction shape with
  | nil => rfl
  | cons n shape ih => simp [indices, List.length_flatMap, ih, List.map_const']

@[simp] theorem length_rowStrides (shape : List Nat) :
    (rowStrides shape).length = shape.length := by
  induction shape with
  | nil => rfl
  | cons n shape ih => simp [rowStrides, ih]

theorem range_mul (n k : Nat) :
    List.range (n * k) = (List.range n).flatMap fun i => (List.range k).map (i * k + ·) := by
  induction n with
  | zero => simp
  | succ n ih => rw [Nat.succ_mul, List.range_add, ih, List.range_succ, List.flatMap_append]; simp

/-- With those strides the places are numbered in their order. -/
theorem distance_rowStrides (shape : List Nat) :
    (indices shape).map (distance (rowStrides shape)) =
      (List.range (volume shape)).map Int.ofNat := by
  induction shape with
  | nil => rfl
  | cons n shape ih =>
    rw [indices, volume_cons, range_mul, List.map_flatMap, List.map_flatMap]
    refine congrArg (List.flatMap · _) (funext fun i => ?_)
    have hrow : ∀ index, distance (rowStrides (n :: shape)) (i :: index) =
        i * volume shape + distance (rowStrides shape) index := fun _ => rfl
    have hshift := congrArg (List.map fun d => (i * volume shape : Int) + d) ih
    simpa [hrow, Function.comp_def] using hshift

/-! ## Arrays -/

/-- What is known of an array's axes before it is looked at: nothing, or that it has one or
two. -/
inductive Form where
  | free | line | grid
deriving DecidableEq, Repr, Inhabited

/-- How many axes there are, if that is known. -/
def Form.rank? : Form → Option Nat
  | .free => none
  | .line => some 1
  | .grid => some 2

/-- What stands in memory at an index, with a stride for each axis. -/
def elementAt? {α : Type} (memory : Array α) (start : Int) (strides : List Int)
    (index : List Nat) : Option α :=
  let place := start + distance strides index
  if place < 0 then none else memory[place.toNat]?

/-- An array. Its elements stand somewhere in memory, one step along an axis as far apart as the
stride of the axis says; a transposed array has its strides in reverse. -/
structure NdArray where
  dtype : Dtype
  form : Form
  shape : List Nat
  memory : Array (Element dtype)
  /-- Where the first place stands in memory. -/
  start : Int
  strides : List Int
  /-- The elements in row-major order of their indices, wherever they stand. -/
  elements : List (Element dtype)
  ranked : ∀ n ∈ form.rank?, shape.length = n
  /-- No shape has more places than memory can number, also if an axis is zero. -/
  bounded : nonzeroVolume shape < Nat.pow 2 63
  stepped : strides.length = shape.length
  placed : (indices shape).map (elementAt? memory start strides) = elements.map some

namespace NdArray

theorem length_elements (a : NdArray) : a.elements.length = volume a.shape := by
  simpa using (congrArg List.length a.placed).symm

/-- The bytes of the elements, in order. -/
def body (a : NdArray) : Bytes := a.elements.flatMap (·.toBytes)

/-! ## From a list of elements -/

/-- A shape that an array of so many elements can have. -/
def Suits (form : Form) (shape : List Nat) (count : Nat) : Prop :=
  count = volume shape ∧ nonzeroVolume shape < Nat.pow 2 63 ∧ ∀ n ∈ form.rank?, shape.length = n

instance (form : Form) (shape : List Nat) (count : Nat) : Decidable (Suits form shape count) := by
  unfold Suits
  infer_instance

theorem placed_rowStrides {α : Type} {shape : List Nat} {elements : List α}
    (h : elements.length = volume shape) :
    (indices shape).map (elementAt? elements.toArray 0 (rowStrides shape)) =
      elements.map some := by
  have hread : elementAt? elements.toArray 0 (rowStrides shape) =
      (fun d : Int => if 0 + d < 0 then none else elements[(0 + d).toNat]?) ∘
        distance (rowStrides shape) := by
    funext index
    simp [elementAt?]
  rw [hread, ← List.map_map, distance_rowStrides, List.map_map, ← h]
  refine List.ext_getElem (by simp) fun k hk hk' => ?_
  simp at hk
  simp [hk]

/-- The array of these elements in this shape, if there is one. They stand in memory one after
another. -/
def ofList? (dtype : Dtype) (form : Form) (shape : List Nat) (elements : List (Element dtype)) :
    Option NdArray :=
  if h : Suits form shape elements.length then
    some {
      dtype, form, shape, elements
      memory := elements.toArray
      start := 0
      strides := rowStrides shape
      ranked := h.2.2
      bounded := h.2.1
      stepped := length_rowStrides shape
      placed := placed_rowStrides h.1 }
  else none

end NdArray

end FeatureGraph
