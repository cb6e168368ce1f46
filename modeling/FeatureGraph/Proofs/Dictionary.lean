-- What stands in a dictionary: its entries are what its lookups answer, and
-- a dictionary of a list has what the list has.
import FeatureGraph.Dictionary
import Mathlib.Data.List.Nodup

namespace FeatureGraph.Dictionary

universe u

variable {α : Type u} {d d' : Dictionary α} {l : List (String × α)} {key : String} {value : α}

/-! ## Entries and lookups -/

theorem find_eq_some (h : l.Pairwise fun a b => a.1 < b.1) :
    find key l = some value ↔ (key, value) ∈ l := by
  induction l with
  | nil => simp [find]
  | cons e rest ih =>
    obtain ⟨he, hrest⟩ := List.pairwise_cons.mp h
    rw [find]
    split
    · rename_i heq
      subst heq
      constructor
      · intro hv
        cases hv
        exact List.mem_cons_self
      · intro hmem
        rcases List.mem_cons.mp hmem with heq | hmem
        · exact congrArg some (congrArg Prod.snd heq).symm
        · exact absurd (he _ hmem) (String.lt_irrefl _)
    · rename_i hne
      rw [ih hrest, List.mem_cons]
      constructor
      · exact Or.inr
      · rintro (heq | hmem)
        · exact absurd (congrArg Prod.fst heq) hne
        · exact hmem

/-- A lookup answers what stands there. -/
theorem get?_eq_some : d.get? key = some value ↔ (key, value) ∈ d.toList := find_eq_some d.sorted

theorem mem_values : value ∈ d.values ↔ ∃ key, d.get? key = some value := by
  simp only [get?_eq_some, values, toList, List.mem_map]
  constructor
  · rintro ⟨⟨key, v⟩, hmem, rfl⟩
    exact ⟨key, hmem⟩
  · rintro ⟨key, hmem⟩
    exact ⟨(key, value), hmem, rfl⟩

theorem mem_keys : key ∈ d.keys ↔ ∃ value, d.get? key = some value := by
  simp only [get?_eq_some, keys, toList, List.mem_map]
  constructor
  · rintro ⟨⟨k, value⟩, hmem, rfl⟩
    exact ⟨value, hmem⟩
  · rintro ⟨value, hmem⟩
    exact ⟨(key, value), hmem, rfl⟩

/-! ## Dictionaries of lists -/

theorem mem_foldl_insert {e : String × α}
    (h : e ∈ (l.foldl (fun d e => d.insert e.1 e.2) d).toList) : e ∈ l ∨ e ∈ d.toList := by
  induction l generalizing d with
  | nil => exact Or.inr h
  | cons a rest ih =>
    rcases ih h with h | h
    · exact Or.inl (List.mem_cons_of_mem _ h)
    · rcases mem_place h with h | h
      · exact Or.inl (h ▸ List.mem_cons_self)
      · exact Or.inr h

theorem mem_of_mem_ofList {e : String × α} (h : e ∈ (ofList l).toList) : e ∈ l :=
  (mem_foldl_insert h).resolve_right List.not_mem_nil

theorem get?_foldl_insert (h : (l.map Prod.fst).Nodup) (hmem : (key, value) ∈ l) :
    (l.foldl (fun d e => d.insert e.1 e.2) d).get? key = some value := by
  induction l generalizing d with
  | nil => exact absurd hmem List.not_mem_nil
  | cons e rest ih =>
    obtain ⟨he, hrest⟩ := List.nodup_cons.mp h
    rcases List.mem_cons.mp hmem with rfl | hmem
    · -- no later entry has this key, so what is put in first stays
      have hstays : ∀ (rest : List (String × α)) (d : Dictionary α), key ∉ rest.map Prod.fst →
          (rest.foldl (fun d e => d.insert e.1 e.2) d).get? key = d.get? key := by
        intro rest
        induction rest with
        | nil => exact fun _ _ => rfl
        | cons a rest ih =>
          intro d hnot
          simp only [List.map_cons, List.mem_cons, not_or] at hnot
          rw [List.foldl_cons, ih _ hnot.2, get?_insert, if_neg hnot.1]
      rw [List.foldl_cons, hstays rest _ he, get?_insert_self]
    · exact ih hrest hmem

/-- With each key once, every entry of the list is found. -/
theorem get?_ofList (h : (l.map Prod.fst).Nodup) (hmem : (key, value) ∈ l) :
    (ofList l).get? key = some value := get?_foldl_insert h hmem

/-! ## Entries at the end -/

theorem eq_of_toList_eq (h : d.toList = d'.toList) : d = d' := by
  cases d
  cases d'
  cases h
  rfl

theorem toList_insert_last (h : ∀ k ∈ d.keys, k < key) :
    (d.insert key value).toList = d.toList ++ [(key, value)] := by
  obtain ⟨l, hsorted⟩ := d
  have hall : ∀ e ∈ l, e.1 < key := fun e he => h e.1 (List.mem_map_of_mem he)
  have hplace : place key value l = l ++ [(key, value)] := by
    clear h hsorted
    induction l with
    | nil => rfl
    | cons e rest ih =>
      obtain ⟨he, hrest⟩ := List.forall_mem_cons.mp hall
      have hne : key ≠ e.1 := by
        rintro rfl
        exact String.lt_irrefl _ he
      unfold place
      rw [if_neg (String.not_lt.mpr (Std.le_of_lt he)), if_neg hne, ih hrest]
      rfl
  exact hplace

/-- Sorted entries that are put in one after the other stand as they came. -/
theorem toList_foldl_insert (hsorted : l.Pairwise fun a b => a.1 < b.1)
    (hafter : ∀ k ∈ d.keys, ∀ e ∈ l, k < e.1) :
    (l.foldl (fun d e => d.insert e.1 e.2) d).toList = d.toList ++ l := by
  induction l generalizing d with
  | nil => simp
  | cons e rest ih =>
    obtain ⟨he, hrest⟩ := List.pairwise_cons.mp hsorted
    have hlast : (d.insert e.1 e.2).toList = d.toList ++ [(e.1, e.2)] :=
      toList_insert_last fun k hk => hafter k hk e List.mem_cons_self
    rw [List.foldl_cons, ih hrest, hlast]
    · simp
    · intro k hk x hx
      have hk' : k ∈ d.keys ++ [e.1] := by
        have hkeys : (d.insert e.1 e.2).keys = d.keys ++ [e.1] := by
          have hmap := congrArg (List.map Prod.fst) hlast
          rw [List.map_append] at hmap
          exact hmap
        exact hkeys ▸ hk
      rcases List.mem_append.mp hk' with hk | hk
      · exact hafter k hk x (List.mem_cons_of_mem _ hx)
      · obtain rfl := List.mem_singleton.mp hk
        exact he x hx

end FeatureGraph.Dictionary
