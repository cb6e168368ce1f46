-- The pieces of a run of bytes. All but the last are full and none is empty,
-- and no other cut of the run is like that. As far as the run reaches, its
-- first pieces are all full.
import FeatureGraph.Bytes
import Mathlib.Data.List.Basic

namespace FeatureGraph.Bytes

/-- The parts are a run, cut into consecutive parts of `size` bytes; the last part may be shorter,
and none is empty. -/
structure IsCut (size : Nat) (bs : Bytes) (parts : List Bytes) : Prop where
  joined : parts.flatten = bs
  full : ∀ part ∈ parts.dropLast, part.length = size
  bounded : ∀ part ∈ parts, part ≠ [] ∧ part.length ≤ size

theorem pieces_eq_nil {size : Nat} {bs : Bytes} : pieces size bs = [] ↔ bs = [] := by
  cases bs <;> simp [pieces]

/-- No piece is smaller than one byte. -/
theorem pieces_max (size : Nat) (bs : Bytes) : pieces (max 1 size) bs = pieces size bs := by
  have hsize : max 1 size - 1 = size - 1 := by omega
  fun_induction pieces size bs with
  | case1 => rw [pieces]
  | case2 b rest ih => rw [pieces, hsize, ih]

/-- The pieces are such a cut. -/
theorem isCut_pieces (size : Nat) (bs : Bytes) : IsCut (max 1 size) bs (pieces size bs) := by
  refine ⟨flatten_pieces size bs, ?_, ?_⟩
  · fun_induction pieces size bs with
    | case1 => simp
    | case2 b rest ih =>
      by_cases hnil : pieces size (rest.drop (size - 1)) = []
      · simp [hnil]
      · -- a piece with another one behind it is full
        have hmore : size - 1 < rest.length := by
          simpa [pieces_eq_nil] using hnil
        rw [List.dropLast_cons_of_ne_nil hnil, List.forall_mem_cons]
        refine ⟨?_, ih⟩
        rw [List.length_cons, List.length_take]
        omega
  · fun_induction pieces size bs with
    | case1 => simp
    | case2 b rest ih =>
      rw [List.forall_mem_cons]
      refine ⟨⟨List.cons_ne_nil _ _, ?_⟩, ih⟩
      rw [List.length_cons, List.length_take]
      omega

/-- There is only one such cut. -/
theorem IsCut.unique {size : Nat} {bs : Bytes} {parts : List Bytes} (h : IsCut size bs parts) :
    parts = pieces size bs := by
  induction parts generalizing bs with
  | nil => rw [← h.joined, List.flatten_nil, pieces]
  | cons part rest ih =>
    obtain ⟨hpart, hrest⟩ := List.forall_mem_cons.mp h.bounded
    obtain ⟨b, tail, rfl⟩ := List.exists_cons_of_ne_nil hpart.1
    have hlength : tail.length + 1 ≤ size := by simpa using hpart.2
    rw [← h.joined, List.flatten_cons, List.cons_append, pieces]
    by_cases hnil : rest = []
    · subst hnil
      rw [List.flatten_nil, List.append_nil, List.take_of_length_le (by omega),
        List.drop_of_length_le (by omega), pieces]
    · have hfull := h.full
      rw [List.dropLast_cons_of_ne_nil hnil, List.forall_mem_cons, List.length_cons] at hfull
      rw [List.take_left' (by omega), List.drop_left' (by omega)]
      rw [← ih ⟨rfl, hfull.2, hrest⟩]

/-- As far as the run reaches, its first pieces are there and full. -/
theorem take_pieces {size count : Nat} {bs : Bytes} (hsize : 0 < size)
    (h : count * size ≤ bs.length) : ((pieces size bs).take count).length = count ∧
      (∀ part ∈ (pieces size bs).take count, part.length = size) ∧
      ((pieces size bs).take count).flatten = bs.take (count * size) := by
  induction count generalizing bs with
  | zero => simp
  | succ count ih =>
    rw [Nat.succ_mul] at h ⊢
    obtain ⟨b, rest, rfl⟩ := List.exists_cons_of_length_pos (l := bs) (by omega)
    rw [List.length_cons] at h
    have hreach : count * size ≤ (rest.drop (size - 1)).length := by
      rw [List.length_drop]
      omega
    obtain ⟨hcount, hfull, hflatten⟩ := ih hreach
    rw [pieces, List.take_succ_cons]
    refine ⟨by rw [List.length_cons, hcount], ?_, ?_⟩
    · refine List.forall_mem_cons.mpr ⟨?_, hfull⟩
      rw [List.length_cons, List.length_take]
      omega
    · have hwant : count * size + size = (size - 1 + count * size) + 1 := by omega
      rw [List.flatten_cons, hflatten, hwant, List.take_succ_cons, List.cons_append,
        ← List.take_add]

end FeatureGraph.Bytes
