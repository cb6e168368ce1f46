-- What is needed of lists and not in the library.
import Mathlib.Data.List.Nodup
import Mathlib.Data.List.Perm.Subperm

namespace FeatureGraph

universe u v w

/-- A list without repetition within another, and at least as long as the other has different
members, has all of them. -/
theorem mem_of_eraseDups_length_le {needs known : List Nat} {u : Nat} (hnodup : known.Nodup)
    (hsub : ∀ u ∈ known, u ∈ needs) (hlength : needs.eraseDups.length ≤ known.length)
    (hu : u ∈ needs) : u ∈ known := by
  have hsubset : known ⊆ needs.eraseDups := fun v hv => List.mem_eraseDups.mpr (hsub v hv)
  have hperm := (hnodup.subperm hsubset).perm_of_length_le hlength
  exact hperm.mem_iff.mpr (List.mem_eraseDups.mpr hu)

theorem nodup_eraseDups (l : List Nat) : l.eraseDups.Nodup := by
  induction hn : l.length using Nat.strongRecOn generalizing l with
  | ind n ih =>
    cases l with
    | nil => exact .nil
    | cons a rest =>
      rw [List.eraseDups_cons, List.nodup_cons, List.mem_eraseDups]
      refine ⟨by simp, ih _ ?_ _ rfl⟩
      subst hn
      exact Nat.lt_succ_of_le (List.length_filter_le ..)

/-- A list that has all members of another is at least as long as the other has different ones. -/
theorem eraseDups_length_le {needs known : List Nat} (hsub : ∀ u ∈ needs, u ∈ known) :
    needs.eraseDups.length ≤ known.length :=
  ((nodup_eraseDups needs).subperm fun _ hu => hsub _ (List.mem_eraseDups.mp hu)).length_le

theorem idxOf_ne {l : List Nat} {u v : Nat} (hu : u ∈ l) (hne : u ≠ v) :
    l.idxOf u ≠ l.idxOf v := fun h => hne ((List.idxOf_inj hu).mp h)

theorem length_flatMap_replicate {α : Type} (l : List α) (k : Nat) :
    (l.flatMap (List.replicate k)).length = l.length * k := by
  simp [List.length_flatMap]

theorem flatMap_replicate_eq_self {α : Type} {l : List α} {k : Nat} :
    l.flatMap (List.replicate k) = l ↔ k = 1 ∨ l = [] := by
  constructor
  · intro h
    have hlength := congrArg List.length h
    rw [length_flatMap_replicate] at hlength
    rcases Nat.eq_zero_or_pos l.length with hzero | hpos
    · exact Or.inr (List.eq_nil_of_length_eq_zero hzero)
    · exact Or.inl (Nat.eq_of_mul_eq_mul_left hpos (by omega))
  · rintro (rfl | rfl)
    · exact List.flatMap_singleton' l
    · rfl

theorem idxOf_of_count {l : List Nat} {a i : Nat} (hi : l[i]? = some a) (hcount : l.count a = 1) :
    l.idxOf a = i := by
  induction l generalizing i with
  | nil => cases hi
  | cons b rest ih =>
    cases i with
    | zero =>
      cases hi
      exact List.idxOf_cons_self
    | succ i =>
      have hrest : a ∈ rest := List.mem_of_getElem? hi
      have hpos := List.count_pos_iff.mpr hrest
      have hne : b ≠ a := by
        rintro rfl
        rw [List.count_cons_self] at hcount
        omega
      rw [List.count_cons_of_ne hne] at hcount
      rw [List.idxOf_cons_ne _ hne, ih hi hcount]

/-- Where a member of a list with one more at its end stands. -/
theorem snoc_eq_append {α : Type u} {l before after : List α} {a x : α}
    (h : l ++ [a] = before ++ x :: after) :
    (before = l ∧ x = a ∧ after = []) ∨
      ∃ front, after = front ++ [a] ∧ l = before ++ x :: front := by
  rcases List.eq_nil_or_concat after with rfl | ⟨front, last, rfl⟩
  · obtain ⟨hl, hx⟩ := List.append_inj' h rfl
    exact Or.inl ⟨hl.symm, (List.cons.inj hx).1.symm, rfl⟩
  · have hsplit : l ++ [a] = (before ++ x :: front) ++ [last] := by simpa using h
    obtain ⟨hl, hlast⟩ := List.append_inj' hsplit rfl
    exact Or.inr ⟨front, by simp [(List.cons.inj hlast).1], hl⟩

theorem mapM_eq_some {α β : Type} {f : α → Option β} {g : α → β} {l : List α}
    (h : ∀ a ∈ l, f a = some (g a)) : l.mapM f = some (l.map g) := by
  induction l with
  | nil => rfl
  | cons a l ih =>
    obtain ⟨ha, hl⟩ := List.forall_mem_cons.mp h
    rw [List.mapM_cons, ha, ih hl]
    rfl

/-- What is in a list that was gone through came from a member of it. -/
theorem exists_of_mem_mapM {α : Type u} {β : Type u} {f : α → Option β} {l : List α} {l' : List β}
    {b : β} (h : l.mapM f = some l') (hb : b ∈ l') : ∃ a ∈ l, f a = some b := by
  induction l generalizing l' with
  | nil =>
    cases h
    cases hb
  | cons a rest ih =>
    rw [List.mapM_cons] at h
    obtain ⟨x, hx, h⟩ := Option.bind_eq_some_iff.mp h
    obtain ⟨l'', hrest, heq⟩ := Option.bind_eq_some_iff.mp h
    cases heq
    rcases List.mem_cons.mp hb with rfl | hb
    · exact ⟨a, List.mem_cons_self, hx⟩
    · obtain ⟨a', ha', hf⟩ := ih hrest hb
      exact ⟨a', List.mem_cons_of_mem _ ha', hf⟩

/-- A sorted list of members of another, with every member of it that is not above them all, is
where the other begins. -/
theorem prefix_of_lower {α : Type u} {R : α → α → Prop} {l m : List α}
    (hasymm : ∀ {a b}, R a b → ¬ R b a) (hm : m.Pairwise R) (hl : l.Pairwise R)
    (hsub : ∀ a ∈ m, a ∈ l) (hlower : ∀ a ∈ l, a ∈ m ∨ ∀ b ∈ m, R b a) : m <+: l := by
  have hirrefl : ∀ a, ¬ R a a := fun a h => hasymm h h
  induction l generalizing m with
  | nil =>
    obtain rfl : m = [] :=
      List.eq_nil_iff_forall_not_mem.mpr fun a ha => List.not_mem_nil (hsub a ha)
    exact List.nil_prefix
  | cons a l ih =>
    cases m with
    | nil => exact List.nil_prefix
    | cons b m =>
      obtain ⟨ha, hl'⟩ := List.pairwise_cons.mp hl
      obtain ⟨hb, hm'⟩ := List.pairwise_cons.mp hm
      have hnot : ¬ R b a := by
        rcases List.mem_cons.mp (hsub b List.mem_cons_self) with rfl | hmem
        · exact hirrefl b
        · exact hasymm (ha b hmem)
      obtain rfl : a = b := by
        rcases hlower a List.mem_cons_self with hmem | habove
        · exact (List.mem_cons.mp hmem).resolve_right fun hmem => hnot (hb a hmem)
        · exact absurd (habove b List.mem_cons_self) hnot
      rw [List.prefix_cons_inj]
      refine ih hm' hl' (fun x hx => ?_) (fun x hx => ?_)
      · rcases List.mem_cons.mp (hsub x (List.mem_cons_of_mem _ hx)) with rfl | hmem
        · exact absurd (hb x hx) (hirrefl x)
        · exact hmem
      · rcases hlower x (List.mem_cons_of_mem _ hx) with hmem | habove
        · rcases List.mem_cons.mp hmem with rfl | hmem
          · exact absurd (ha x hx) (hirrefl x)
          · exact Or.inl hmem
        · exact Or.inr fun y hy => habove y (List.mem_cons_of_mem _ hy)

/-- Of two lists that go together, what is in the first goes with something in the second. -/
theorem exists_of_forall₂ {α : Type u} {β : Type v} {R : α → β → Prop} {l : List α} {l' : List β}
    (h : List.Forall₂ R l l') {a : α} (ha : a ∈ l) : ∃ b ∈ l', R a b := by
  induction h with
  | nil => cases ha
  | @cons x y rest rest' hxy _ ih =>
    rcases List.mem_cons.mp ha with rfl | ha
    · exact ⟨y, List.mem_cons_self, hxy⟩
    · obtain ⟨b, hb, hab⟩ := ih ha
      exact ⟨b, List.mem_cons_of_mem _ hb, hab⟩

/-- Members that are left out take their labels with them. -/
theorem map_filterMap_sublist {α : Type u} {β : Type v} {γ : Type w} {f : α → Option β}
    {p : β → γ} {q : α → γ} (h : ∀ a b, f a = some b → p b = q a) (l : List α) :
    ((l.filterMap f).map p).Sublist (l.map q) := by
  induction l with
  | nil => exact .slnil
  | cons a rest ih =>
    cases ha : f a with
    | none => simpa [ha] using ih.cons (q a)
    | some b => simpa [ha, h a b ha] using ih

/-- Where a member that is kept stands in the whole list. -/
theorem filter_split {α : Type u} {p : α → Bool} {l front back : List α} {a : α}
    (h : l.filter p = front ++ a :: back) :
    ∃ before after, l = before ++ a :: after ∧ before.filter p = front ∧ after.filter p = back := by
  obtain ⟨before, rest, rfl, hbefore, hrest⟩ := List.filter_eq_append_iff.mp h
  obtain ⟨skipped, after, rfl, hskipped, -, hafter⟩ := List.filter_eq_cons_iff.mp hrest
  refine ⟨before ++ skipped, after, by simp, ?_, hafter⟩
  rw [List.filter_append, hbefore, List.filter_eq_nil_iff.mpr hskipped, List.append_nil]

theorem getElem?_concat_ne {α : Type u} {l : List α} {a : α} {i : Nat} (hi : i ≠ l.length) :
    (l ++ [a])[i]? = l[i]? := by
  rcases Nat.lt_or_gt_of_ne hi with hlt | hgt
  · exact List.getElem?_append_left hlt
  · rw [List.getElem?_eq_none (by simpa using Nat.succ_le_of_lt hgt),
      List.getElem?_eq_none (Nat.le_of_lt hgt)]

/-- A list, member by member, by the places that it has at most. -/
theorem flatMap_eq_range {α : Type u} {β : Type v} (f : α → List β) {l : List α} {k : Nat}
    (h : l.length ≤ k) :
    l.flatMap f = (List.range k).flatMap fun i => (l[i]?.map f).getD [] := by
  induction l generalizing k with
  | nil => simp
  | cons a rest ih =>
    cases k with
    | zero => cases h
    | succ k =>
      rw [List.flatMap_cons, ih (Nat.le_of_succ_le_succ h), List.range_succ_eq_map,
        List.flatMap_cons, List.flatMap_map]
      rfl

/-- Two lists in one order with the same members are one. -/
theorem eq_of_ordered {α : Type} {r : α → α → Prop} (hr : ∀ a b, r a b → ¬ r b a) {l l' : List α}
    (hl : l.Pairwise r) (hl' : l'.Pairwise r) (hmem : ∀ m, m ∈ l ↔ m ∈ l') : l = l' := by
  have hne : ∀ {a b}, r a b → a ≠ b := by
    rintro a _ hab rfl
    exact hr a a hab hab
  have hperm : l.Perm l' := (List.perm_ext_iff_of_nodup (hl.imp hne) (hl'.imp hne)).mpr hmem
  exact hperm.eq_of_pairwise (fun a b _ _ hab hba => absurd hab (hr b a hba)) hl hl'

theorem eq_of_sorted {l l' : List Nat} (hl : l.Pairwise (· < ·)) (hl' : l'.Pairwise (· < ·))
    (hmem : ∀ m, m ∈ l ↔ m ∈ l') : l = l' :=
  eq_of_ordered (fun _ _ => Nat.lt_asymm) hl hl' hmem

/-- Where a fold that stops has come to. -/
theorem foldlM_eq_error {α : Type u} {β : Type v} {ε : Type w} {f : β → α → Except ε β}
    {l : List α} {b : β} {e : ε} (h : l.foldlM f b = .error e) :
    ∃ before a after b', l = before ++ a :: after ∧ before.foldlM f b = .ok b' ∧
      f b' a = .error e := by
  induction l generalizing b with
  | nil => cases h
  | cons a rest ih =>
    rw [List.foldlM_cons] at h
    cases hfirst : f b a with
    | error e' =>
      rw [hfirst] at h
      cases h
      exact ⟨[], a, rest, b, rfl, rfl, hfirst⟩
    | ok b₁ =>
      rw [hfirst] at h
      obtain ⟨before, x, after, b', rfl, hbefore, hstops⟩ := ih h
      refine ⟨a :: before, x, after, b', rfl, ?_, hstops⟩
      rw [List.foldlM_cons, hfirst]
      exact hbefore

end FeatureGraph
