-- The stored form of an array is read back. The header says what it was
-- written from, elements are as many bytes as their width, and the first
-- axis is known from the count of bytes, unless a row has none.
import FeatureGraph.Codec.ArrayFormat
import FeatureGraph.Proofs.ByteSource
import FeatureGraph.Proofs.Json.ReadingBack

namespace FeatureGraph

/-! ## Runs of bytes -/

theorem Bytes.pieces_flatten {size : Nat} (hsize : 0 < size) {runs : List Bytes}
    (h : ∀ run ∈ runs, run.length = size) : Bytes.pieces size runs.flatten = runs := by
  induction runs with
  | nil => rw [List.flatten_nil, Bytes.pieces]
  | cons run runs ih =>
    obtain ⟨hrun, hruns⟩ := List.forall_mem_cons.mp h
    obtain ⟨b, run, rfl⟩ := List.exists_cons_of_length_pos (l := run) (by omega)
    have hlength : run.length = size - 1 := by
      rw [List.length_cons] at hrun
      omega
    rw [List.flatten_cons, List.cons_append, Bytes.pieces, List.take_left' hlength,
      List.drop_left' hlength, ih hruns]

/-! ## Shapes -/

theorem volume_pos_iff {shape : List Nat} : 0 < volume shape ↔ ∀ n ∈ shape, n ≠ 0 := by
  induction shape with
  | nil => simp
  | cons n shape ih =>
    rw [List.forall_mem_cons, ← ih, volume_cons, Nat.pos_iff_ne_zero, Nat.pos_iff_ne_zero,
      Nat.mul_ne_zero_iff]

theorem nonzeroVolume_cons (n : Nat) (shape : List Nat) :
    nonzeroVolume (n :: shape) = if n = 0 then nonzeroVolume shape else n * nonzeroVolume shape := by
  unfold nonzeroVolume
  by_cases hn : n = 0 <;> simp [hn]

theorem nonzeroVolume_le_cons (n : Nat) (shape : List Nat) :
    nonzeroVolume shape ≤ nonzeroVolume (n :: shape) := by
  rw [nonzeroVolume_cons]
  split
  · exact Nat.le_refl _
  · exact Nat.le_mul_of_pos_left _ (Nat.pos_of_ne_zero ‹_›)

theorem nonzeroVolume_pos (shape : List Nat) : 0 < nonzeroVolume shape := by
  refine volume_pos_iff.mpr fun n hn => ?_
  simpa using (List.mem_filter.mp hn).2

theorem nonzeroVolume_of_pos {shape : List Nat} (h : 0 < volume shape) :
    nonzeroVolume shape = volume shape := by
  unfold nonzeroVolume
  rw [List.filter_eq_self.mpr fun n hn => by simpa using volume_pos_iff.mp h n hn]

/-- An axis is no longer than the places that memory can number. -/
theorem le_nonzeroVolume {shape : List Nat} {n : Nat} (h : n ∈ shape) : n ≤ nonzeroVolume shape := by
  induction shape with
  | nil => cases h
  | cons m shape ih =>
    rcases List.mem_cons.mp h with rfl | h
    · rw [nonzeroVolume_cons]
      split
      · omega
      · exact Nat.le_mul_of_pos_right _ (nonzeroVolume_pos shape)
    · exact Nat.le_trans (ih h) (nonzeroVolume_le_cons m shape)

/-! ## Elements -/

/-- The elements in order, each as the number that its bits write. -/
def NdArray.bits (a : NdArray) : List Nat := a.elements.map (·.val)

theorem length_flatMap_toBytes {t : Dtype} (elements : List (Element t)) :
    (elements.flatMap (·.toBytes)).length = elements.length * t.size := by
  simp [List.length_flatMap, List.map_const']

namespace ArrayFormat

variable {t : Dtype} {axes : List Nat} {source : ByteSource}

theorem elementsOf_flatMap (elements : List (Element t)) :
    elementsOf t (elements.flatMap (·.toBytes)) = elements := by
  have hsize := t.size_pos
  have hpieces : Bytes.pieces t.size (elements.flatMap (·.toBytes)) = elements.map (·.toBytes) := by
    rw [List.flatMap_def]
    refine Bytes.pieces_flatten hsize fun run hrun => ?_
    obtain ⟨x, -, rfl⟩ := List.mem_map.mp hrun
    exact Element.length_toBytes x
  rw [elementsOf, length_flatMap_toBytes, Nat.mul_div_cancel _ hsize,
    List.take_of_length_le (Nat.le_of_eq (length_flatMap_toBytes elements)), hpieces, List.map_map]
  simp [Function.comp_def]

/-! ## The header -/

theorem unescaped_tag (t : Dtype) : ∀ c ∈ t.tag.toList, Json.Unescaped c :=
  Json.unescaped_of_all (by cases t <;> decide)

theorem toCount?_int {n : Nat} (h : n < 2 ^ 64) :
    Json.toCount? (.int (Int.ofNat n)) = some n := by
  have hfits : 0 ≤ Int.ofNat n ∧ Int.ofNat n < Nat.pow 2 64 := by
    rw [Nat.pow_eq, Int.ofNat_eq_natCast]
    omega
  rw [Json.toCount?, if_pos hfits]
  rfl

theorem Header.parse?_toBytes (haxes : ∀ n ∈ axes, n < 2 ^ 64) :
    Header.parse? (Header.mk t.tag axes).toBytes = some ⟨t.tag, axes⟩ := by
  have hitems : ∀ j ∈ axes.map fun n => Json.int (Int.ofNat n), Json.ReadsBack
      (Json.value Json.kept (Json.nestingLimit - 2)) (Text.encode j.print) j := by
    intro j hj
    obtain ⟨n, hn, rfl⟩ := List.mem_map.mp hj
    exact Json.readsBack_int (haxes n hn) _
  have hread := @Json.parseRecord?_print [("dtype", .string t.tag),
    ("shape", .array (axes.map fun n => .int (Int.ofNat n)))] (by simp)
    (by
      simp only [List.forall_mem_cons]
      exact ⟨Json.unescaped_of_all (by decide), Json.unescaped_of_all (by decide), by simp⟩)
    (by
      simp only [List.forall_mem_cons]
      exact ⟨Json.readsBack_string (unescaped_tag t) _,
        Json.readsBack_array hitems, by simp⟩)
  have hcounts : (axes.map fun n => Json.int (Int.ofNat n)).mapM Json.toCount? = some axes := by
    rw [List.mapM_map]
    refine (mapM_eq_some (g := id) fun n hn => ?_).trans (by simp)
    rw [Function.comp_apply, toCount?_int (haxes n hn)]
    rfl
  simp only [List.map_cons, List.map_nil] at hread
  simp only [Header.parse?, Header.toBytes, hread, hcounts, Option.map_some]

/-! ## Arrays -/

theorem exists_ofList? {shape : List Nat} {elements : List (Element t)}
    (h : NdArray.Suits .free shape elements.length) :
    ∃ whole : NdArray, NdArray.ofList? t .free shape elements = some whole ∧ whole.dtype = t ∧
      whole.form = .free ∧ whole.shape = shape ∧ whole.bits = elements.map (·.val) := by
  rw [NdArray.ofList?, dif_pos h]
  exact ⟨_, rfl, rfl, rfl, rfl, rfl⟩

/-- The first axis is known from the count of bytes, as long as a row has any. -/
theorem decodeBody_flatMap {rows : Nat} {elements : List (Element t)}
    (hcount : elements.length = rows * volume axes)
    (hfits : nonzeroVolume ((if volume axes = 0 then 0 else rows) :: axes) < 2 ^ 63) :
    ∃ whole : NdArray, decodeBody t axes (elements.flatMap (·.toBytes)) = .ok (.array whole) ∧
      whole.dtype = t ∧ whole.form = .free ∧
      whole.shape = (if volume axes = 0 then 0 else rows) :: axes ∧
      whole.bits = elements.map (·.val) := by
  have hsuits : NdArray.Suits .free ((if volume axes = 0 then 0 else rows) :: axes)
      elements.length := by
    refine ⟨?_, hfits, by simp [Form.rank?]⟩
    rw [hcount, volume_cons]
    split <;> simp_all
  obtain ⟨whole, hwhole, hfields⟩ := exists_ofList? hsuits
  refine ⟨whole, ?_, hfields⟩
  have hrow : volume axes * t.size = 0 ↔ volume axes = 0 := by
    have hsize := t.size_pos
    rw [Nat.mul_eq_zero]
    omega
  have hrows : (if volume axes * t.size = 0 then 0 else
      (elements.flatMap (·.toBytes)).length / (volume axes * t.size)) =
      if volume axes = 0 then 0 else rows := by
    rw [length_flatMap_toBytes, hcount, Nat.mul_assoc]
    by_cases hzero : volume axes = 0
    · rw [if_pos hzero, if_pos (hrow.mpr hzero)]
    · have hpos := Nat.pos_of_ne_zero (mt hrow.mp hzero)
      rw [if_neg hzero, if_neg (mt hrow.mp hzero), Nat.mul_div_cancel _ hpos]
  have hexact : (if volume axes = 0 then 0 else rows) * (volume axes * t.size) =
      (elements.flatMap (·.toBytes)).length := by
    rw [length_flatMap_toBytes, hcount]
    by_cases hzero : volume axes = 0
    · simp [hzero]
    · rw [if_neg hzero, Nat.mul_assoc]
  have hempty : ¬ (volume axes * t.size = 0 ∧ elements.flatMap (·.toBytes) ≠ []) := by
    rintro ⟨hzero, hne⟩
    rw [hzero, Nat.mul_zero] at hexact
    exact hne (List.eq_nil_of_length_eq_zero hexact.symm)
  simp only [decodeBody, if_neg hempty, hrows, hexact, ne_eq, not_true_eq_false, if_false,
    elementsOf_flatMap, hwhole]

/-- Behind a header that is read, the rest is the body. -/
theorem decodeSource_header {head body : Bytes}
    (hlayout : source.rest = Bytes.ofNat 4 head.length ++ (head ++ body))
    (hshort : head.length < 2 ^ 32) (hheader : Header.parse? head = some ⟨t.tag, axes⟩)
    (hsource : source.Lasts) : decodeSource t source = decodeBody t axes body := by
  have hsize : Bytes.toNat (Bytes.ofNat 4 head.length) = head.length := by
    rw [Bytes.toNat_ofNat]
    exact Nat.mod_eq_of_lt hshort
  obtain ⟨source₁, hread₁, hrest₁, hsource₁⟩ :=
    ByteSource.readExactly_of_lasts hsource 4 (by rw [hlayout]; simp)
  rw [hlayout, List.take_left' (Bytes.length_ofNat ..)] at hread₁
  rw [hlayout, List.drop_left' (Bytes.length_ofNat ..)] at hrest₁
  obtain ⟨source₂, hread₂, hrest₂, hsource₂⟩ :=
    ByteSource.readExactly_of_lasts hsource₁ head.length (by rw [hrest₁]; simp)
  rw [hrest₁, List.take_left' rfl] at hread₂
  rw [hrest₁, List.drop_left' rfl] at hrest₂
  simp only [decodeSource, hread₁, Except.mapError, bind, Except.bind, hsize, hread₂, hheader,
    ByteSource.readAll_of_lasts hsource₂, hrest₂, ne_eq, not_true_eq_false, if_false]

/-- A source that begins with a header is read as an array of its axes. -/
theorem decodeSource_framed {head body : Bytes} (haxes : ∀ n ∈ axes, n < 2 ^ 64)
    (hhead : (Header.mk t.tag axes).framed? = some head) (hsource : source.Lasts)
    (hrest : source.rest = head ++ body) : decodeSource t source = decodeBody t axes body := by
  unfold Header.framed? at hhead
  split at hhead
  · rename_i hsmall
    cases hhead
    rw [List.append_assoc] at hrest
    exact decodeSource_header hrest hsmall (Header.parse?_toBytes haxes) hsource
  · cases hhead

end ArrayFormat

end FeatureGraph
