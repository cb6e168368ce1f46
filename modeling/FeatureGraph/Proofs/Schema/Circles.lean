-- Which declarations are a schema. The search for circles comes back to a
-- feature on its way exactly if a feature needs itself: what it has finished
-- needs only what was finished before, and every feature on its way leads to
-- the one that it looks at. Without a circle the features that need nothing
-- are where everything begins.
import FeatureGraph.Proofs.Schema.Compiling
import FeatureGraph.Schema.Entity
import Mathlib.Logic.Relation

namespace FeatureGraph.Schema

open Relation

/-! ## The way of a search -/

section Search

variable {needsOf : String → List String} {keys : List String} {depth : Nat} {key : String}
  {s : Search} {e : SchemaError}

/-- One key needs the other. -/
def Leads (needsOf : String → List String) (key need : String) : Prop := need ∈ needsOf key

/-- A search that looks at a key: what it has on the way are keys that lead there, each once. -/
structure Search.OnWay (needsOf : String → List String) (keys : List String) (key : String)
    (s : Search) : Prop where
  once : s.visiting.Nodup
  known : s.visiting ⊆ keys
  leads : ∀ k ∈ s.visiting, TransGen (Leads needsOf) k key

/-- From the key that it looks at the search goes on to what this one needs. -/
theorem Search.OnWay.enter (h : s.OnWay needsOf keys key) (hkey : key ∈ keys)
    (hnew : key ∉ s.visiting) {need : String} (hneed : need ∈ needsOf key) {s' : Search}
    (hvisiting : s'.visiting = key :: s.visiting) : s'.OnWay needsOf keys need := by
  refine ⟨?_, ?_, ?_⟩ <;> rw [hvisiting]
  · exact List.nodup_cons.mpr ⟨hnew, h.once⟩
  · exact List.cons_subset.mpr ⟨hkey, h.known⟩
  · refine List.forall_mem_cons.mpr ⟨.single hneed, fun k hk => ?_⟩
    exact (h.leads k hk).tail hneed

/-- The way is never longer than there are keys, so the depth is not used up before a key is met
again. -/
theorem Search.OnWay.length_le (h : s.OnWay needsOf keys key) : s.visiting.length ≤ keys.length :=
  (h.once.subperm h.known).length_le

/-- A search that stops names a key that leads to itself. -/
theorem visit_error (hclosed : ∀ key ∈ keys, ∀ need ∈ needsOf key, need ∈ keys)
    (h : visit needsOf depth key s = .error e) (hkey : key ∈ keys)
    (hs : s.Sound needsOf (· ∈ keys)) (hway : s.OnWay needsOf keys key)
    (hdepth : keys.length < s.visiting.length + depth) :
    ∃ k ∈ keys, e = .cycle k ∧ TransGen (Leads needsOf) k k := by
  induction depth generalizing key s with
  | zero =>
    have := hway.length_le
    omega
  | succ depth ih =>
    rw [visit] at h
    split at h
    · cases h
    · rename_i hunfinished
      split at h
      · rename_i hmet
        cases h
        exact ⟨key, hkey, rfl, hway.leads key hmet⟩
      · rename_i hnew
        dsimp only at h
        split at h
        · rename_i e' hfold
          cases h
          -- one of the needs stops the search, after those before it have been gone through
          obtain ⟨before, need, after, s₁, hneeds, hbefore, hstops⟩ := foldlM_eq_error hfold
          have hentered : Search.Sound needsOf (· ∈ keys)
              { s with visiting := key :: s.visiting } :=
            ⟨hs.orderly, List.forall_mem_cons.mpr ⟨hunfinished, hs.apart⟩, hs.known⟩
          have hknown : ∀ k ∈ before ++ need :: after, k ∈ keys := fun k hk =>
            hclosed key hkey k (hneeds ▸ hk)
          obtain ⟨hs₁, honward, -⟩ :=
            foldlM_visit (fun h hkey hs => visit_sound hclosed h hkey hs)
              (fun k hk => hknown k (List.mem_append_left _ hk)) hentered hbefore
          have hneed : need ∈ needsOf key := by
            rw [hneeds]
            exact List.mem_append_right _ List.mem_cons_self
          refine ih hstops (hclosed key hkey need hneed) hs₁
            (hway.enter hkey hnew hneed honward.visiting) ?_
          rw [honward.visiting, List.length_cons]
          omega
        · cases h

end Search

/-! ## Circles among features -/

section Features

variable {features : Dictionary Feature} {rank : String → Nat} {f : Feature} {key need : String}
  {e : SchemaError}

/-- No feature needs itself, at once or through others. -/
def Acyclic (features : Dictionary Feature) : Prop :=
  ∀ key, ¬ TransGen (Leads (needsOf features)) key key

/-- Everything that is needed is declared. -/
def Closed (features : Dictionary Feature) : Prop :=
  ∀ ⦃f⦄, f ∈ features.values → ∀ key ∈ f.needs, ∃ p, features.get? key = some p

theorem leads_iff : Leads (needsOf features) key need ↔
    ∃ f, features.get? key = some f ∧ need ∈ f.needs := by
  unfold Leads needsOf
  cases features.get? key <;> simp

theorem Closed.mem_keys (h : Closed features) (hneed : need ∈ needsOf features key) :
    need ∈ features.keys := by
  obtain ⟨f, hf, hneed⟩ := leads_iff.mp hneed
  exact Dictionary.mem_keys.mpr (h (Dictionary.mem_values.mpr ⟨key, hf⟩) need hneed)

/-- What a feature needs, at once or through others, has a lower rank. -/
theorem Ranking.lt_of_leads (hkeyed : Keyed features) (hrank : Ranking features rank)
    (h : TransGen (Leads (needsOf features)) key need) : rank need < rank key := by
  have hone : ∀ {key need}, Leads (needsOf features) key need → rank need < rank key := by
    intro key need hleads
    obtain ⟨f, hf, hneed⟩ := leads_iff.mp hleads
    exact hkeyed hf ▸ hrank.lt (Dictionary.mem_values.mpr ⟨key, hf⟩) hneed
  induction h with
  | single hleads => exact hone hleads
  | tail _ hleads ih => exact Nat.lt_trans (hone hleads) ih

/-- The search that stops has come back to a feature that needs itself. -/
theorem checkAcyclic_error (hclosed : Closed features) (h : checkAcyclic features = .error e) :
    ∃ key ∈ features.keys, e = .cycle key ∧ TransGen (Leads (needsOf features)) key key := by
  unfold checkAcyclic at h
  split at h
  · cases h
  · rename_i e' hsearch
    cases h
    have hneeds : ∀ key ∈ features.keys, ∀ need ∈ needsOf features key, need ∈ features.keys :=
      fun _ _ _ hneed => hclosed.mem_keys hneed
    have hstart : Search.Sound (needsOf features) (· ∈ features.keys) ⟨[], []⟩ :=
      ⟨⟨.nil, fun heq => by simp at heq⟩, by simp, by simp⟩
    obtain ⟨before, key, after, s, hkeys, hbefore, hstops⟩ := foldlM_eq_error hsearch
    have hmem : ∀ k ∈ before ++ key :: after, k ∈ features.keys := fun k hk => hkeys ▸ hk
    obtain ⟨hs, honward, -⟩ := foldlM_visit (fun h hkey hs => visit_sound hneeds h hkey hs)
      (fun k hk => hmem k (List.mem_append_left _ hk)) hstart hbefore
    -- between two searches nothing is on the way
    have hvisiting : s.visiting = [] := honward.visiting
    refine visit_error hneeds hstops (hmem key (List.mem_append_right _ List.mem_cons_self)) hs
      ⟨?_, ?_, ?_⟩ ?_
    · rw [hvisiting]
      exact List.nodup_nil
    · rw [hvisiting]
      exact List.nil_subset _
    · simp [hvisiting]
    · have hsize : features.keys.length = features.size := List.length_map _
      omega

/-- The features of accepted schemas are those that are complete and without a circle. -/
theorem accepted_iff : Accepted features ↔ Keyed features ∧ Closed features ∧ Acyclic features := by
  constructor
  · rintro ⟨hkeyed, hdeclared, rank, hrank⟩
    refine ⟨hkeyed, fun f hf key hkey => hdeclared hf hkey, fun key hcircle => ?_⟩
    exact Nat.lt_irrefl _ (hrank.lt_of_leads hkeyed hcircle)
  · rintro ⟨hkeyed, hclosed, hacyclic⟩
    refine ⟨hkeyed, fun hf hneed => hclosed hf _ hneed, ?_⟩
    cases hcheck : checkAcyclic features with
    | ok => exact ranking_of_checkAcyclic hkeyed (fun hf hneed => hclosed hf _ hneed) hcheck
    | error e =>
      obtain ⟨key, -, -, hcircle⟩ := checkAcyclic_error hclosed hcheck
      exact absurd hcircle (hacyclic key)

/-- Every feature is a root, or there is one among those that it needs at last. -/
theorem Accepted.exists_root (h : Accepted features) (hf : f ∈ features.values) :
    ∃ root ∈ features.values, root.isRoot = true := by
  obtain ⟨rank, hrank⟩ := h.ranked
  induction hn : rank f.key using Nat.strongRecOn generalizing f with
  | ind n ih =>
    cases hneeds : f.needs with
    | nil => exact ⟨f, hf, by simp [Feature.isRoot, hneeds]⟩
    | cons need rest =>
      have hneed : need ∈ f.needs := hneeds ▸ List.mem_cons_self
      obtain ⟨p, hp⟩ := h.declared hf hneed
      have hlt := hrank.lt hf hneed
      obtain rfl : p.key = need := h.keyed hp
      exact ih (rank p.key) (hn ▸ hlt) (Dictionary.mem_values.mpr ⟨_, hp⟩) rfl

end Features

/-! ## Declarations -/

section Declarations

variable {declarations fs : List Feature} {scheme : KeyScheme} {features : Dictionary Feature}
  {f : Feature} {key need name : String} {idSource : IdSource} {s : Schema}

/-- Among these declarations a feature of the one key needs the other. -/
def Declares (declarations : List Feature) (key need : String) : Prop :=
  ∃ f ∈ declarations, f.key = key ∧ need ∈ f.needs

/-- Features are taken in unless a key stands twice or cannot be stored. -/
theorem collect_ok_iff : (∃ features', collect scheme features fs = .ok features') ↔
    (fs.map (·.key)).Nodup ∧
      ∀ f ∈ fs, features.contains f.key = false ∧ scheme.validate f.key = .ok () := by
  induction fs generalizing features with
  | nil => simp [collect]
  | cons f rest ih =>
    have hother : ∀ g : Feature, (features.insert f.key f).contains g.key = false ↔
        g.key ≠ f.key ∧ features.contains g.key = false := by
      intro g
      unfold Dictionary.contains
      rw [Dictionary.get?_insert]
      by_cases hkey : g.key = f.key <;> simp [hkey]
    rw [collect, List.map_cons, List.nodup_cons, List.forall_mem_cons]
    cases hfound : features.contains f.key with
    | true => simp
    | false =>
      cases hvalid : scheme.validate f.key with
      | error e => simp
      | ok =>
        simp only [Bool.false_eq_true, if_false, ih, hother, List.mem_map, not_exists, not_and,
          true_and]
        grind

/-- What is taken in are the declarations, each under its key. -/
theorem get?_collect (h : collect scheme Dictionary.empty declarations = .ok features) :
    features.get? key = some f ↔ f ∈ declarations ∧ f.key = key := by
  obtain ⟨hnodup, -⟩ := collect_ok_iff.mp ⟨_, h⟩
  have hfold : features = (declarations.map fun f => (f.key, f)).foldl
      (fun d e => d.insert e.1 e.2) Dictionary.empty := by
    rw [collect_eq_ok h, List.foldl_map]
  constructor
  · intro hget
    have hmem : (key, f) ∈ declarations.map fun f => (f.key, f) := by
      refine Dictionary.mem_of_mem_ofList (Dictionary.get?_eq_some.mp ?_)
      rw [Dictionary.ofList, ← hfold]
      exact hget
    obtain ⟨g, hg, heq⟩ := List.mem_map.mp hmem
    cases heq
    exact ⟨hg, rfl⟩
  · rintro ⟨hf, rfl⟩
    rw [hfold]
    refine Dictionary.get?_foldl_insert ?_ (List.mem_map_of_mem hf)
    rw [List.map_map]
    exact hnodup

theorem leads_collect (h : collect scheme Dictionary.empty declarations = .ok features) :
    Leads (needsOf features) = Declares declarations := by
  funext key need
  simp only [leads_iff, get?_collect h, Declares, and_assoc]

theorem mem_values_collect (h : collect scheme Dictionary.empty declarations = .ok features) :
    f ∈ features.values ↔ f ∈ declarations := by
  rw [Dictionary.mem_values]
  simp [get?_collect h]

theorem undeclared?_eq_none_iff : undeclared? features fs = none ↔
    ∀ f ∈ fs, ∀ need ∈ f.needs, ∃ p, features.get? need = some p := by
  refine ⟨fun h f hf need hneed => undeclared?_eq_none h hf hneed, fun h => ?_⟩
  induction fs with
  | nil => rfl
  | cons f rest ih =>
    obtain ⟨hf, hrest⟩ := List.forall_mem_cons.mp h
    have hnone : (f.needs.find? fun key => !features.contains key) = none := by
      refine List.find?_eq_none.mpr fun need hneed => ?_
      simp [contains_iff.mpr (hf need hneed)]
    rw [undeclared?, hnone]
    exact ih hrest

/-- Everything that is needed is declared. -/
theorem closed_collect (h : collect scheme Dictionary.empty declarations = .ok features) :
    Closed features ↔ ∀ f ∈ declarations, ∀ need ∈ f.needs, ∃ p ∈ declarations, p.key = need := by
  unfold Closed
  simp only [mem_values_collect h, get?_collect h]

theorem collect_ne_cycle : collect scheme features fs ≠ .error (.cycle key) := by
  induction fs generalizing features with
  | nil => simp [collect]
  | cons f rest ih =>
    rw [collect]
    split
    · simp
    · split
      · simp
      · exact ih

/-- Declarations that can be taken in are a schema if they are complete and without a circle. -/
theorem build_ok_iff : (∃ s, build name scheme idSource declarations = .ok s) ↔
    declarations ≠ [] ∧ ∃ features, collect scheme Dictionary.empty declarations = .ok features ∧
      Closed features ∧ Acyclic features := by
  constructor
  · rintro ⟨s, hbuild⟩
    obtain ⟨features, hcollect, rfl⟩ := build_eq_ok hbuild
    obtain ⟨-, hclosed, hacyclic⟩ := accepted_iff.mp (accepted_build hbuild)
    refine ⟨?_, features, hcollect, hclosed, hacyclic⟩
    rintro rfl
    cases hbuild
  · rintro ⟨hsome, features, hcollect, hclosed, hacyclic⟩
    have hnone : undeclared? features features.values = none :=
      undeclared?_eq_none_iff.mpr fun f hf need hneed => hclosed hf need hneed
    have hcheck : checkAcyclic features = .ok () := by
      cases hcheck : checkAcyclic features with
      | ok => rfl
      | error e =>
        obtain ⟨key, -, -, hcircle⟩ := checkAcyclic_error hclosed hcheck
        exact absurd hcircle (hacyclic key)
    refine ⟨⟨name, scheme, idSource, features⟩, ?_⟩
    simp [build, hsome, hcollect, hnone, hcheck]

theorem build_eq_cycle (h : build name scheme idSource declarations = .error (.cycle key)) :
    ∃ features, collect scheme Dictionary.empty declarations = .ok features ∧ Closed features ∧
      checkAcyclic features = .error (.cycle key) := by
  unfold build at h
  split at h
  · cases h
  · split at h
    · rename_i hcollect
      cases h
      exact absurd hcollect collect_ne_cycle
    · rename_i features hcollect
      split at h
      · cases h
      · rename_i hnone
        have hclosed : Closed features := fun f hf need hneed =>
          undeclared?_eq_none_iff.mp hnone f hf need hneed
        split at h
        · rename_i hcheck
          cases h
          exact ⟨features, hcollect, hclosed, hcheck⟩
        · cases h

/-- Taking an entity in fails for many reasons, but not for a root that is missing. -/
theorem process_ne_noRoot (h : Accepted s.features) (inputs : Inputs) (w : Workspace)
    (schema : String) : (s.process inputs w).1 ≠ .error (.schema (.noRoot schema)) := by
  unfold process
  split
  · simp
  · rename_i id w' _
    rcases fullGraph_cases s.scheme id h s.name with ⟨g, hg, -⟩ | ⟨key, -, hg⟩
    · simp only [hg]
      split <;> simp
    · simp [hg]

theorem ingest_ne_noRoot (h : Accepted s.features) (hroots : s.roots ≠ []) (value : Payload)
    (w : Workspace) (schema : String) :
    (s.ingest value w).1 ≠ .error (.schema (.noRoot schema)) := by
  unfold ingest
  split
  · exact process_ne_noRoot h _ w schema
  · contradiction
  · simp

/-- A schema of one feature or more has a root. -/
theorem Accepted.roots_ne_nil (h : Accepted s.features) (hf : f ∈ s.features.values) :
    s.roots ≠ [] := by
  obtain ⟨root, hroot, hisRoot⟩ := h.exists_root hf
  refine List.ne_nil_of_mem (a := root.key) ?_
  exact List.mem_map_of_mem (List.mem_filter.mpr ⟨hroot, hisRoot⟩)

/-- Declarations are a schema exactly if there are any, their keys differ and can be stored, what
they need is declared, and none needs itself. A feature that is refused for a circle is on one. And
every schema has a root, so there is always one to take an entity in by. -/
theorem build_accepts_exactly (name : String) (scheme : KeyScheme) (idSource : IdSource)
    (declarations : List Feature) :
    ((∃ s, build name scheme idSource declarations = .ok s) ↔
      declarations ≠ [] ∧ (declarations.map (·.key)).Nodup ∧
        (∀ f ∈ declarations, scheme.validate f.key = .ok ()) ∧
        (∀ f ∈ declarations, ∀ need ∈ f.needs, ∃ p ∈ declarations, p.key = need) ∧
        ∀ key, ¬ TransGen (Declares declarations) key key) ∧
    (∀ key, build name scheme idSource declarations = .error (.cycle key) →
      (∃ f ∈ declarations, f.key = key) ∧ TransGen (Declares declarations) key key) ∧
    ∀ s, build name scheme idSource declarations = .ok s → s.roots ≠ [] ∧
      ∀ value w schema, (s.ingest value w).1 ≠ .error (.schema (.noRoot schema)) := by
  refine ⟨?_, fun key h => ?_, fun s h => ?_⟩
  · have hkeys : (∃ features, collect scheme Dictionary.empty declarations = .ok features) ↔
        (declarations.map (·.key)).Nodup ∧ ∀ f ∈ declarations, scheme.validate f.key = .ok () := by
      rw [collect_ok_iff]
      simp [Dictionary.contains]
    rw [build_ok_iff]
    refine and_congr_right fun _ => ?_
    constructor
    · rintro ⟨features, hcollect, hclosed, hacyclic⟩
      obtain ⟨hnodup, hvalid⟩ := hkeys.mp ⟨features, hcollect⟩
      refine ⟨hnodup, hvalid, (closed_collect hcollect).mp hclosed, ?_⟩
      rw [← leads_collect hcollect]
      exact hacyclic
    · rintro ⟨hnodup, hvalid, hdeclared, hnone⟩
      obtain ⟨features, hcollect⟩ := hkeys.mpr ⟨hnodup, hvalid⟩
      refine ⟨features, hcollect, (closed_collect hcollect).mpr hdeclared, ?_⟩
      rw [← leads_collect hcollect] at hnone
      exact hnone
  · obtain ⟨features, hcollect, hclosed, hcheck⟩ := build_eq_cycle h
    obtain ⟨k, hk, heq, hcircle⟩ := checkAcyclic_error hclosed hcheck
    cases heq
    obtain ⟨f, hf⟩ := Dictionary.mem_keys.mp hk
    refine ⟨⟨f, (get?_collect hcollect).mp hf⟩, ?_⟩
    rw [← leads_collect hcollect]
    exact hcircle
  · have haccepted := accepted_build h
    obtain ⟨features, hcollect, rfl⟩ := build_eq_ok h
    obtain ⟨f, rest, rfl⟩ := List.exists_cons_of_ne_nil (build_ok_iff.mp ⟨_, h⟩).1
    have hroots := haccepted.roots_ne_nil ((mem_values_collect hcollect).mpr List.mem_cons_self)
    exact ⟨hroots, ingest_ne_noRoot haccepted hroots⟩

end Declarations

/-- Two features that need each other. -/
def circle : List Feature :=
  [text, { Feature.new "b" (Component.byteStream 1) with needs := ["a", "c"] },
    { Feature.new "c" (Component.byteStream 1) with needs := ["b"] }]

/-- One of the two is named. -/
theorem circle_is_refused :
    build "s" (.delimited ":") (.input "id") circle = .error (.cycle "b") ∧
      TransGen (Declares circle) "b" "b" ∧
      (build "s" (.delimited ":") (.input "id") [text] = .ok texts ∧ texts.roots ≠ []) := by
  have hcircle : build "s" (.delimited ":") (.input "id") circle = .error (.cycle "b") := rfl
  have htexts : build "s" (.delimited ":") (.input "id") [text] = .ok texts := rfl
  exact ⟨hcircle, ((build_accepts_exactly _ _ _ circle).2.1 "b" hcircle).2, htexts,
    ((build_accepts_exactly _ _ _ [text]).2.2 texts htexts).1⟩

end FeatureGraph.Schema
