-- Which features have a value. What the declarations say, that a feature can
-- be worked out from what is stored, and what the store says agree where the
-- store holds the features that are declared as stored, and no others.
import FeatureGraph.Proofs.Schema.Retracing
import FeatureGraph.Schema.Entity

namespace FeatureGraph.Schema

universe u

/-! ## Features that can be worked out -/

section Computable

variable {features : Dictionary Feature} {rank : String → Nat} {f : Feature} {depth depth' : Nat}

theorem derivable_succ : Feature.derivable features (depth + 1) f = true ↔ f.isStored = true ∨
    f.needs ≠ [] ∧ ∀ key ∈ f.needs, ∃ p, features.get? key = some p ∧
      Feature.derivable features depth p = true := by
  simp only [Feature.derivable, Feature.isRoot, Bool.or_eq_true, Bool.and_eq_true,
    Bool.not_eq_true', List.isEmpty_eq_false_iff, List.all_eq_true]
  refine or_congr Iff.rfl (and_congr Iff.rfl (forall₂_congr fun key _ => ?_))
  cases features.get? key <;> simp

/-- Chains of needs that are at least as long as the rank of a feature are all that count. -/
theorem derivable_congr (haccepted : Accepted features) (hrank : Ranking features rank)
    (hf : f ∈ features.values) (hdepth : rank f.key ≤ depth) (hdepth' : rank f.key ≤ depth') :
    Feature.derivable features depth f = Feature.derivable features depth' f := by
  induction depth generalizing f depth' with
  | zero =>
    have hroot : f.needs = [] := List.eq_nil_iff_forall_not_mem.mpr fun key hkey => by
      have := hrank.lt hf hkey
      omega
    cases depth' <;> simp [Feature.derivable, Feature.isRoot, hroot]
  | succ depth ih =>
    cases depth' with
    | zero =>
      have hroot : f.needs = [] := List.eq_nil_iff_forall_not_mem.mpr fun key hkey => by
        have := hrank.lt hf hkey
        omega
      simp [Feature.derivable, Feature.isRoot, hroot]
    | succ depth' =>
      rw [Bool.eq_iff_iff, derivable_succ, derivable_succ]
      refine or_congr Iff.rfl (and_congr Iff.rfl (forall₂_congr fun key hkey =>
        exists_congr fun p => and_congr_right fun hp => ?_))
      have hlt := hrank.lt hf hkey
      obtain rfl : p.key = key := haccepted.keyed hp
      rw [ih (Dictionary.mem_values.mpr ⟨_, hp⟩) (by omega) (by omega : rank p.key ≤ depth')]

/-- A feature can be worked out if it is stored, or if it is no root and all that it needs can
be. -/
theorem canCompute_iff (haccepted : Accepted features) :
    f.canCompute features = true ↔ f.isStored = true ∨
      f.needs ≠ [] ∧ ∀ key ∈ f.needs, ∃ p, features.get? key = some p ∧
        p.canCompute features = true := by
  obtain ⟨rank, hrank⟩ := haccepted.ranked
  rw [Feature.canCompute, derivable_succ]
  refine or_congr Iff.rfl (and_congr Iff.rfl (forall₂_congr fun key hkey => exists_congr fun p =>
    and_congr_right fun hp => ?_))
  have hlt := hrank.lt_size (Dictionary.mem_values.mpr ⟨_, hp⟩)
  rw [Feature.canCompute, derivable_congr haccepted hrank (Dictionary.mem_values.mpr ⟨_, hp⟩)
    (Nat.le_of_lt hlt) (Nat.le_succ_of_le (Nat.le_of_lt hlt))]

variable {scheme : KeyScheme} {w : Workspace} {id target : String}

/-- The store holds the features that are declared as stored, and no others. -/
def HoldsDeclared (features : Dictionary Feature) (scheme : KeyScheme) (w : Workspace)
    (id : String) : Prop :=
  ∀ f ∈ features.values, isStoredFor scheme w id f.key = .ok f.isStored

/-- What is reached from a feature that can be worked out can be worked out. -/
theorem canCompute_of_reached (haccepted : Accepted features)
    (hholds : HoldsDeclared features scheme w id) (hf : f ∈ features.values)
    (hstored : f.isStored = false) (hcompute : f.canCompute features = true) {key : String}
    (hreached : Reached features scheme w id f.key key) :
    ∃ p, features.get? key = some p ∧ p.canCompute features = true := by
  induction hreached with
  | target => exact ⟨f, haccepted.keyed.get?_key hf, hcompute⟩
  | @need g key hg _ habsent hkey ih =>
    obtain ⟨p, hp, hcompute'⟩ := ih
    obtain rfl : p = g := Option.some.inj (hp.symm.trans (haccepted.keyed.get?_key hg))
    have hout : p.isStored = false := by
      rcases habsent with heq | habsent
      · exact haccepted.keyed.eq_of_key_eq hg hf heq ▸ hstored
      · rw [hholds p hg] at habsent
        exact Except.ok.inj habsent
    rcases (canCompute_iff haccepted).mp hcompute' with htrue | ⟨-, hneeds⟩
    · rw [hout] at htrue
      cases htrue
    · exact hneeds key hkey

/-- So no root is missing. -/
theorem not_missing_of_canCompute (haccepted : Accepted features)
    (hholds : HoldsDeclared features scheme w id) (hf : f ∈ features.values)
    (hstored : f.isStored = false) (hcompute : f.canCompute features = true) {g : Feature} :
    ¬ Missing features scheme w id f.key g := by
  intro hmissing
  obtain ⟨p, hp, hcompute'⟩ :=
    canCompute_of_reached haccepted hholds hf hstored hcompute hmissing.reached
  obtain rfl : p = g :=
    Option.some.inj (hp.symm.trans (haccepted.keyed.get?_key hmissing.declared))
  rcases (canCompute_iff haccepted).mp hcompute' with htrue | ⟨hneeds, -⟩
  · rcases hmissing.absent with heq | habsent
    · rw [haccepted.keyed.eq_of_key_eq hmissing.declared hf heq, hstored] at htrue
      cases htrue
    · rw [hholds p hmissing.declared, htrue] at habsent
      cases habsent
  · exact hneeds hmissing.root

end Computable

/-! ## Reading a feature -/

section Read

variable {s : Schema} {w : Workspace} {id key : String} {f : Feature} {e : Failure}

/-- It is the failure of a feature that is not available. -/
def Unavailable {α : Type u} (result : Except Failure α) : Prop :=
  ∃ feature reason, result = .error (.unavailable feature reason)

theorem openSources_error {keys : List String} {inputs : Inputs}
    (h : (s.openSources id keys inputs w).1 = .error e) : ∃ cause, e = .storage cause := by
  induction keys generalizing inputs w with
  | nil => cases h
  | cons key rest ih =>
    rw [openSources] at h
    split at h
    · cases h
      exact ⟨_, rfl⟩
    · exact ih h

/-- What is worked out again is unavailable only if there is no partial graph. -/
theorem recompute_unavailable (h : Unavailable (s.recompute w id f).1) :
    Unavailable (partialGraph s.name s.features s.scheme w.newCapture.2 id f.key
      w.newCapture.1) := by
  obtain ⟨feature, reason, h⟩ := h
  simp only [recompute] at h
  split at h
  · rename_i herror
    cases h
    exact ⟨feature, reason, herror⟩
  · split at h
    · rename_i hopen
      obtain ⟨cause, rfl⟩ := openSources_error (congrArg Prod.fst hopen)
      cases h
    · split at h
      · cases h
      · dsimp only at h
        cases hdecode : f.decoder.decode _ with
        | error cause =>
          rw [hdecode] at h
          cases h
        | ok value =>
          rw [hdecode] at h
          cases h

/-- A stored feature may fail to be read, but it is available. -/
theorem readStored_available : ¬ Unavailable (s.readStored w id f) := by
  rintro ⟨feature, reason, h⟩
  unfold readStored at h
  split at h
  · cases h
  · rename_i source _
    cases hdecode : f.decoder.decode source with
    | error cause =>
      rw [hdecode] at h
      cases h
    | ok value =>
      rw [hdecode] at h
      cases h

/-- A handle that does not know a feature reads it. -/
theorem get_of_unknown {handle : Entity} (h : handle.known.get? key = none) :
    (handle.get s key w).1 = (s.read w handle.id key).1 := by
  simp only [Entity.get, h]
  rcases s.read w handle.id key with ⟨_ | _, _⟩ <;> rfl

/-- A handle that has read nothing reads. -/
theorem get_new (s : Schema) (id key : String) (w : Workspace) :
    ((Entity.new id).get s key w).1 = (s.read w id key).1 := get_of_unknown rfl

/-- The bytes that were read, if they were. -/
def bytesRead? : Except Failure Payload → Option Bytes
  | .ok (.bytes bs) => some bs
  | _ => none

theorem eq_of_bytesRead? {result : Except Failure Payload} {bs : Bytes}
    (h : bytesRead? result = some bs) : result = .ok (.bytes bs) := by
  unfold bytesRead? at h
  split at h
  · cases h
    rfl
  · cases h

/-- Where the store holds what is declared, reading a feature finds it unavailable exactly if it
cannot be worked out. -/
theorem read_unavailable_iff (haccepted : Accepted s.features)
    (hholds : HoldsDeclared s.features s.scheme w id) (hf : f ∈ s.features.values) :
    Unavailable (s.read w id f.key).1 ↔ f.canCompute s.features = false := by
  have hfeature : s.feature f.key = .ok f := by
    rw [feature, haccepted.keyed.get?_key hf]
  rw [read, hfeature]
  dsimp only
  cases hstored : f.isStored with
  | true =>
    rw [if_pos rfl, hholds f hf, hstored]
    refine iff_of_false readStored_available ?_
    rw [(canCompute_iff haccepted).mpr (Or.inl hstored)]
    exact Bool.noConfusion
  | false =>
    rw [if_neg Bool.false_ne_true]
    dsimp only
    cases hcompute : f.canCompute s.features with
    | false =>
      rw [if_neg Bool.false_ne_true]
      exact iff_of_true ⟨_, _, rfl⟩ rfl
    | true =>
      rw [if_pos rfl]
      refine iff_of_false (fun h => ?_) Bool.noConfusion
      have hopen : HoldsDeclared s.features s.scheme w.newCapture.2 id := hholds
      obtain ⟨_, _, hun⟩ := recompute_unavailable h
      rcases partialGraph_cases haccepted
        (fun g hg _ _ => ⟨_, hopen g hg⟩) hf s.name w.newCapture.1 with
        ⟨g, hg, -⟩ | ⟨-, ⟨plan, hplan, -⟩ | ⟨key, -, -, -, herror⟩⟩
      · exact not_missing_of_canCompute haccepted hopen hf hstored hcompute hg
      · rw [hplan] at hun
        cases hun
      · rw [herror] at hun
        cases hun

/-- What the handle remembers are values of features that can be worked out. -/
def KnowsComputable (features : Dictionary Feature) (handle : Entity) : Prop :=
  ∀ key value, handle.known.get? key = some value →
    ∃ f, features.get? key = some f ∧ f.canCompute features = true

/-- Where the store holds what is declared, a handle finds a feature unavailable exactly if it
cannot be worked out, and remembers only what can be. -/
theorem unavailable_iff_not_computable {name : String} {scheme : KeyScheme} {idSource : IdSource}
    {declarations : List Feature} {handle : Entity}
    (hbuild : build name scheme idSource declarations = .ok s)
    (hholds : HoldsDeclared s.features s.scheme w handle.id)
    (hknown : KnowsComputable s.features handle) (hf : f ∈ s.features.values) :
    (Unavailable (handle.get s f.key w).1 ↔ f.canCompute s.features = false) ∧
      KnowsComputable s.features (handle.get s f.key w).2.1 := by
  have haccepted := accepted_build hbuild
  have hget := haccepted.keyed.get?_key hf
  cases hmemo : handle.known.get? f.key with
  | some value =>
    obtain ⟨g, hg, hcompute⟩ := hknown f.key value hmemo
    obtain rfl : f = g := Option.some.inj (hget.symm.trans hg)
    simp only [Entity.get, hmemo]
    exact ⟨iff_of_false (by simp [Unavailable]) (by simp [hcompute]), hknown⟩
  | none =>
    have hread := read_unavailable_iff haccepted hholds hf
    refine ⟨by rw [get_of_unknown hmemo, hread], ?_⟩
    simp only [Entity.get, hmemo]
    rcases hresult : s.read w handle.id f.key with ⟨_ | value, w'⟩
    · exact hknown
    · -- what is read is not unavailable, so the feature can be worked out
      have hcompute : f.canCompute s.features = true := by
        rw [← Bool.not_eq_false, ← hread, hresult]
        simp [Unavailable]
      intro key value' hvalue
      rw [Dictionary.get?_insert] at hvalue
      split at hvalue
      · rename_i heq
        exact ⟨f, heq ▸ hget, hcompute⟩
      · exact hknown key value' hvalue

end Read

/-! ## An entity with all that is declared as stored -/

/-- A root that is not stored. -/
def stray : Feature := Feature.new "d" (Component.byteStream 1)

def straying : Schema := { echoing with features := echoing.features.insert "d" stray }

def allStored : Workspace :=
  { blank with store := .memory <|
      ((Dictionary.empty.insert "e:a" ⟨octetStream, Text.encode "x"⟩).insert
        "e:b" ⟨octetStream, Text.encode "x"⟩) }

/-- What needs a stored feature is available, and what is given from outside is not. -/
theorem stray_is_unavailable :
    build "s" (.delimited ":") (.input "id") [text, mute, echo, stray] = .ok straying ∧
      HoldsDeclared straying.features straying.scheme allStored "e" ∧
      KnowsComputable straying.features (Entity.new "e") ∧
      ¬ Unavailable ((Entity.new "e").get straying "c" allStored).1 ∧
      Unavailable ((Entity.new "e").get straying "d" allStored).1 := by
  have hbuild : build "s" (.delimited ":") (.input "id") [text, mute, echo, stray] = .ok straying :=
    rfl
  have hvalues : straying.features.values = [text, mute, echo, stray] := rfl
  have hholds : HoldsDeclared straying.features straying.scheme allStored "e" := by
    intro f hf
    rw [hvalues] at hf
    simp only [List.mem_cons, List.not_mem_nil, or_false] at hf
    rcases hf with rfl | rfl | rfl | rfl <;> rfl
  have hknown : KnowsComputable straying.features (Entity.new "e") := fun _ _ h => nomatch h
  have hhandle : HoldsDeclared straying.features straying.scheme allStored (Entity.new "e").id :=
    hholds
  have hecho := (unavailable_iff_not_computable (f := echo) hbuild hhandle
    hknown (by simp [hvalues])).1
  have hstray := (unavailable_iff_not_computable (f := stray) hbuild hhandle
    hknown (by simp [hvalues])).1
  exact ⟨hbuild, hholds, hknown, fun h => absurd (hecho.mp h) (by decide +kernel),
    hstray.mpr (by decide +kernel)⟩

end FeatureGraph.Schema
