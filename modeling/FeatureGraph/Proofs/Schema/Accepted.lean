-- What building a schema makes sure of. Every feature stands under its own
-- key, and what it needs is declared. No feature needs itself: the search for
-- circles finishes a feature only after all that it needs, so the features can
-- be ranked, and a chain of needs is no longer than there are features.
import FeatureGraph.Proofs.Schema.Persisting

namespace FeatureGraph.Schema

/-! ## Finished features -/

section Search

variable {needsOf : String → List String} {Known : String → Prop} {depth : Nat} {key : String}
  {s s' : Search}

/-- Every key of the list is there once, and its needs stand behind it. -/
structure Orderly (needsOf : String → List String) (keys : List String) : Prop where
  nodup : keys.Nodup
  behind : ∀ {after key before}, keys = after ++ key :: before →
    ∀ need ∈ needsOf key, need ∈ before

theorem Orderly.cons {keys : List String} (h : Orderly needsOf keys) (hnew : key ∉ keys)
    (hneeds : ∀ need ∈ needsOf key, need ∈ keys) : Orderly needsOf (key :: keys) := by
  refine ⟨List.nodup_cons.mpr ⟨hnew, h.nodup⟩, fun {after k before} heq => ?_⟩
  cases after with
  | nil =>
    cases heq
    exact hneeds
  | cons a rest =>
    cases heq
    exact h.behind rfl

/-- A key stands behind no more keys, counted from the end, than those that need it. -/
theorem Orderly.idxOf_lt {keys : List String} (h : Orderly needsOf keys) (hkey : key ∈ keys)
    {need : String} (hneed : need ∈ needsOf key) :
    keys.reverse.idxOf need < keys.reverse.idxOf key := by
  obtain ⟨after, before, rfl⟩ := List.append_of_mem hkey
  have hmem := h.behind rfl need hneed
  have hnot : key ∉ before.reverse := fun hk =>
    (List.nodup_cons.mp (List.nodup_append.mp h.nodup).2.1).1 (List.mem_reverse.mp hk)
  rw [List.reverse_append, List.reverse_cons, List.append_assoc, List.singleton_append,
    List.idxOf_append_of_mem (List.mem_reverse.mpr hmem), List.idxOf_append_of_notMem hnot,
    List.idxOf_cons_self, Nat.add_zero]
  exact List.idxOf_lt_length_of_mem (List.mem_reverse.mpr hmem)

/-- What holds of a search at any time. -/
structure Search.Sound (needsOf : String → List String) (Known : String → Prop) (s : Search) :
    Prop where
  orderly : Orderly needsOf s.finished
  apart : ∀ key ∈ s.visiting, key ∉ s.finished
  known : ∀ key ∈ s.finished, Known key

/-- A search that has gone on, and is back where it was. -/
structure Search.Onward (s s' : Search) : Prop where
  visiting : s'.visiting = s.visiting
  finished : s.finished ⊆ s'.finished

theorem foldlM_visit (hvisit : ∀ {key s s'}, visit needsOf depth key s = .ok s' → Known key →
      s.Sound needsOf Known → s'.Sound needsOf Known ∧ s.Onward s' ∧ key ∈ s'.finished)
    {keys : List String} (hkeys : ∀ key ∈ keys, Known key) (hs : s.Sound needsOf Known)
    (h : keys.foldlM (fun s key => visit needsOf depth key s) s = .ok s') :
    s'.Sound needsOf Known ∧ s.Onward s' ∧ ∀ key ∈ keys, key ∈ s'.finished := by
  induction keys generalizing s with
  | nil =>
    cases h
    exact ⟨hs, ⟨rfl, fun _ h => h⟩, by simp⟩
  | cons key rest ih =>
    obtain ⟨hkey, hrest⟩ := List.forall_mem_cons.mp hkeys
    rw [List.foldlM_cons] at h
    cases hfirst : visit needsOf depth key s with
    | error e =>
      rw [hfirst] at h
      cases h
    | ok s₁ =>
      rw [hfirst] at h
      obtain ⟨hs₁, honward, hdone⟩ := hvisit hfirst hkey hs
      obtain ⟨hs', honward', hothers⟩ := ih hrest hs₁ h
      refine ⟨hs', ⟨honward'.visiting.trans honward.visiting, fun _ h => ?_⟩, ?_⟩
      · exact honward'.finished (honward.finished h)
      · exact List.forall_mem_cons.mpr ⟨honward'.finished hdone, hothers⟩

/-- The search finishes the feature that it goes to, and all that this one needs before. -/
theorem visit_sound (hclosed : ∀ key, Known key → ∀ need ∈ needsOf key, Known need)
    (h : visit needsOf depth key s = .ok s') (hkey : Known key) (hs : s.Sound needsOf Known) :
    s'.Sound needsOf Known ∧ s.Onward s' ∧ key ∈ s'.finished := by
  induction depth generalizing key s s' with
  | zero => cases h
  | succ depth ih =>
    rw [visit] at h
    split at h
    · rename_i hdone
      cases h
      exact ⟨hs, ⟨rfl, fun _ h => h⟩, hdone⟩
    · rename_i hnew
      split at h
      · cases h
      · rename_i hoff
        dsimp only at h
        split at h
        · cases h
        · rename_i s₁ hfold
          cases h
          have hentered : Search.Sound needsOf Known { s with visiting := key :: s.visiting } :=
            ⟨hs.orderly, List.forall_mem_cons.mpr ⟨hnew, hs.apart⟩, hs.known⟩
          obtain ⟨hs₁, honward, hneeds⟩ :=
            foldlM_visit (fun h hkey hs => ih h hkey hs) (hclosed key hkey) hentered hfold
          have hway : s₁.visiting = key :: s.visiting := honward.visiting
          have hfresh : key ∉ s₁.finished := hs₁.apart key (hway ▸ List.mem_cons_self)
          have hback : s₁.visiting.erase key = s.visiting := by rw [hway, List.erase_cons_head]
          refine ⟨⟨hs₁.orderly.cons hfresh hneeds, ?_, List.forall_mem_cons.mpr ⟨hkey, hs₁.known⟩⟩,
            ⟨hback, fun _ h => List.mem_cons_of_mem _ (honward.finished h)⟩, List.mem_cons_self⟩
          dsimp only
          rw [hback]
          intro k hk
          rw [List.mem_cons, not_or]
          exact ⟨fun heq => hoff (heq ▸ hk), hs₁.apart k (hway ▸ List.mem_cons_of_mem _ hk)⟩

end Search

/-! ## Accepted schemas -/

/-- A rank for every feature: lower than the number of the features, and higher than the ranks of
what the feature needs. -/
structure Ranking (features : Dictionary Feature) (rank : String → Nat) : Prop where
  lt_size : ∀ {f}, f ∈ features.values → rank f.key < features.size
  lt : ∀ {f need}, f ∈ features.values → need ∈ f.needs → rank need < rank f.key

/-- What holds of the features of every schema. -/
structure Accepted (features : Dictionary Feature) : Prop where
  keyed : Keyed features
  declared : ∀ {f need}, f ∈ features.values → need ∈ f.needs → ∃ p, features.get? need = some p
  ranked : ∃ rank, Ranking features rank

section Build

variable {features : Dictionary Feature} {f : Feature} {name key : String} {scheme : KeyScheme}
  {idSource : IdSource} {declarations : List Feature} {s : Schema}

theorem contains_iff : features.contains key = true ↔ ∃ p, features.get? key = some p := by
  rw [Dictionary.contains, Option.isSome_iff_exists]

theorem undeclared?_eq_none {fs : List Feature} (h : undeclared? features fs = none) (hf : f ∈ fs)
    (hkey : key ∈ f.needs) : ∃ p, features.get? key = some p := by
  induction fs with
  | nil => cases hf
  | cons g rest ih =>
    rw [undeclared?] at h
    split at h
    · cases h
    · rename_i hnone
      rcases List.mem_cons.mp hf with rfl | hf
      · have hneed := List.find?_eq_none.mp hnone key hkey
        rw [Bool.not_eq_true, Bool.not_eq_false'] at hneed
        exact contains_iff.mp hneed
      · exact ih h hf

/-- In the order in which the search for circles finishes the features, each comes after all that
it needs. -/
theorem ranking_of_checkAcyclic (hkeyed : Keyed features)
    (hdeclared : ∀ {f need}, f ∈ features.values → need ∈ f.needs →
      ∃ p, features.get? need = some p)
    (h : checkAcyclic features = .ok ()) : ∃ rank, Ranking features rank := by
  have hneeds : ∀ {key f}, features.get? key = some f → needsOf features key = f.needs := by
    intro key f hf
    rw [needsOf, hf]
  have hclosed : ∀ key, (∃ f, features.get? key = some f) → ∀ need ∈ needsOf features key,
      ∃ f, features.get? need = some f := by
    rintro key ⟨f, hf⟩ need hneed
    exact hdeclared (Dictionary.mem_values.mpr ⟨key, hf⟩) (hneeds hf ▸ hneed)
  unfold checkAcyclic at h
  split at h
  · rename_i done hsearch
    have hstart : Search.Sound (needsOf features) (∃ f, features.get? · = some f) ⟨[], []⟩ :=
      ⟨⟨.nil, fun heq => by simp at heq⟩, by simp, by simp⟩
    obtain ⟨hsound, -, hall⟩ := foldlM_visit (fun h hkey hs => visit_sound hclosed h hkey hs)
      (fun key hkey => Dictionary.mem_keys.mp hkey) hstart hsearch
    have hmem : ∀ {f}, f ∈ features.values → f.key ∈ done.finished := fun hf =>
      hall _ (Dictionary.mem_keys.mpr ⟨_, hkeyed.get?_key hf⟩)
    have hfew : done.finished.length ≤ features.size := by
      have hsub : done.finished ⊆ features.keys := fun key hkey =>
        Dictionary.mem_keys.mpr (hsound.known key hkey)
      have hlength := (hsound.orderly.nodup.subperm hsub).length_le
      rwa [Dictionary.keys, List.length_map] at hlength
    refine ⟨fun key => done.finished.reverse.idxOf key, fun {f} hf => ?_,
      fun {f need} hf hneed => ?_⟩
    · have hlt := List.idxOf_lt_length_of_mem (List.mem_reverse.mpr (hmem hf))
      rw [List.length_reverse] at hlt
      exact Nat.lt_of_lt_of_le hlt hfew
    · exact hsound.orderly.idxOf_lt (hmem hf) (hneeds (hkeyed.get?_key hf) ▸ hneed)
  · cases h

theorem accepted_build (h : build name scheme idSource declarations = .ok s) :
    Accepted s.features := by
  have hkeyed := keyed_build h
  unfold build at h
  split at h
  · cases h
  · split at h
    · cases h
    · split at h
      · cases h
      · rename_i hdeclared
        split at h
        · cases h
        · rename_i hacyclic
          cases h
          refine ⟨hkeyed, fun hf hneed => undeclared?_eq_none hdeclared hf hneed, ?_⟩
          exact ranking_of_checkAcyclic hkeyed
            (fun hf hneed => undeclared?_eq_none hdeclared hf hneed) hacyclic

end Build

end FeatureGraph.Schema
