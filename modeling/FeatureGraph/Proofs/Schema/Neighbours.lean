-- Entities side by side. Taking one in leaves under the storage keys of any other
-- what there was, however it ends, and so every feature of the other is read as
-- before, whether it is stored or has to be worked out again.
import FeatureGraph.Proofs.Run.Abreast
import FeatureGraph.Proofs.Schema.Availability
import FeatureGraph.Proofs.Schema.Handles
import FeatureGraph.Proofs.Storage.Elsewhere
import FeatureGraph.Proofs.Storage.Key

namespace FeatureGraph

namespace Schema

/-! ## Reading in workspaces that are the same elsewhere -/

section Partial

variable {features : Dictionary Feature} {scheme : KeyScheme} {w w' : Workspace} {id : String}

/-- Of the workspace a partial graph takes only which features are stored. -/
theorem addPartial_congr (hstored : ∀ f ∈ features.values,
      isStoredFor scheme w' id f.key = isStoredFor scheme w id f.key)
    {f : Feature} (hf : f ∈ features.values) (depth : Nat) (target : Bool) :
    addPartial features scheme w' id depth target f =
      addPartial features scheme w id depth target f := by
  induction depth generalizing target f with
  | zero => rfl
  | succ depth ih =>
    have hneeds : (fun key => withFeature features key
          (addPartial features scheme w' id depth false)) =
        fun key => withFeature features key (addPartial features scheme w id depth false) := by
      funext key
      unfold withFeature
      cases hg : features.get? key with
      | none => rfl
      | some g => exact ih (Dictionary.mem_values.mpr ⟨key, hg⟩) false
    rw [addPartial, addPartial, hstored f hf, hneeds]

theorem partialGraph_congr (hstored : ∀ f ∈ features.values,
      isStoredFor scheme w' id f.key = isStoredFor scheme w id f.key)
    (schema target : String) (slot : Nat) :
    partialGraph schema features scheme w' id target slot =
      partialGraph schema features scheme w id target slot := by
  unfold partialGraph withFeature
  cases hf : features.get? target with
  | none => rfl
  | some f =>
    simp only [addPartial_congr hstored (Dictionary.mem_values.mpr ⟨target, hf⟩)]

end Partial

section Read

variable {s : Schema} {keys : String → Prop} {w w' : Workspace} {id : String}

/-- None of the features of an entity has one of these keys, or the key of the log's file. -/
def Elsewhere (s : Schema) (keys : String → Prop) (w : Workspace) (id : String) : Prop :=
  ∀ f ∈ s.features.values,
    ¬ keys (s.scheme.build id f.key) ∧ ¬ w.KeepsLogAt (s.scheme.build id f.key)

theorem openSources_alike (h : w.SameElsewhere keys w') (hout : s.Elsewhere keys w id)
    {sources : List String} (hsources : ∀ key ∈ sources, ∃ f ∈ s.features.values, f.key = key)
    (inputs : Inputs) :
    (s.openSources id sources inputs w').1 = (s.openSources id sources inputs w).1 ∧
      (s.openSources id sources inputs w).2.SameElsewhere keys
        (s.openSources id sources inputs w').2 := by
  induction sources generalizing inputs w w' with
  | nil => exact ⟨rfl, h⟩
  | cons key rest ih =>
    obtain ⟨⟨f, hf, rfl⟩, hrest⟩ := List.forall_mem_cons.mp hsources
    rw [openSources, openSources, h.read (hout f hf).1 (hout f hf).2]
    cases w.read (s.scheme.build id f.key) with
    | error e => exact ⟨rfl, h⟩
    | ok source =>
      obtain ⟨hpayload, hheld⟩ := h.holdStream source
      dsimp only
      rw [hpayload]
      -- a stream that is put aside leaves the log where it is
      exact ih hheld (fun f hf => hout f hf) hrest _

variable (hrespects : ∀ f ∈ s.features.values, f.isRoot = false →
  f.component.Respects (Workspace.SameElsewhere keys))

include hrespects

theorem Part.respects {slot : Nat} {c : Component Workspace} (hc : Part s.features slot c) :
    c.Respects (Workspace.SameElsewhere keys) := by
  cases hc with
  | replay d => exact Component.replay_respects d
  | feature hf hroot => exact hrespects _ hf hroot
  | encoding e => exact Component.encoding_respects _ e
  | capture => exact Component.capture_respects slot

theorem recompute_alike (h : w.SameElsewhere keys w') (hout : s.Elsewhere keys w id)
    (f : Feature) : (s.recompute w' id f).1 = (s.recompute w id f).1 := by
  obtain ⟨hslot, hnew⟩ := h.newCapture
  have hout' : s.Elsewhere keys w.newCapture.2 id := fun f hf => hout f hf
  unfold recompute
  rcases heq : w.newCapture with ⟨slot, w₁⟩
  rcases heq' : w'.newCapture with ⟨slot', w₁'⟩
  rw [heq, heq'] at hslot hnew
  rw [heq] at hout'
  dsimp only at hslot hnew hout' ⊢
  subst hslot
  have hstored : ∀ f ∈ s.features.values,
      isStoredFor s.scheme w₁' id f.key = isStoredFor s.scheme w₁ id f.key := fun f hf => by
    rw [isStoredFor, isStoredFor, (hnew.stored (hout' f hf).1 (hout' f hf).2).2.1]
  rw [partialGraph_congr hstored]
  cases hplan : partialGraph s.name s.features s.scheme w₁ id f.key slot' with
  | error e => rfl
  | ok plan =>
    obtain ⟨-, hparts, hsources⟩ := madeOf_partialGraph hplan
    obtain ⟨hinputs, hopen⟩ := openSources_alike hnew hout' hsources Dictionary.empty
    dsimp only
    rcases hopens : s.openSources id plan.sources Dictionary.empty w₁ with ⟨opened, w₂⟩
    rcases hopens' : s.openSources id plan.sources Dictionary.empty w₁' with ⟨opened', w₂'⟩
    rw [hopens, hopens'] at hinputs hopen
    dsimp only at hinputs hopen
    subst hinputs
    rcases opened' with e | inputs
    · rfl
    · obtain ⟨hresult, -, hworld⟩ := Graph.runs_alike (g := plan.graph)
        (fun hn => (hparts hn).respects hrespects) inputs hopen
      unfold Graph.process
      dsimp only
      rcases hrun : plan.graph.run inputs w₂ with ⟨⟨g, w₃, j⟩, result⟩
      rcases hrun' : plan.graph.run inputs w₂' with ⟨⟨g', w₃', j'⟩, result'⟩
      rw [hrun, hrun'] at hresult hworld
      dsimp only at hresult hworld ⊢
      subst hresult
      rcases result' with e | _
      · rfl
      · dsimp only
        rw [hworld.captured slot']

/-- Where a feature of the entity is the same, the same is read of it, also if it has to be worked
out again, and if reading fails. -/
theorem read_alike (h : w.SameElsewhere keys w') (hout : s.Elsewhere keys w id) (key : String) :
    (s.read w' id key).1 = (s.read w id key).1 := by
  unfold read feature
  cases hf : s.features.get? key with
  | none => rfl
  | some f =>
    obtain ⟨hkey, hlog⟩ := hout f (Dictionary.mem_values.mpr ⟨key, hf⟩)
    have hstored : isStoredFor s.scheme w' id f.key = isStoredFor s.scheme w id f.key := by
      rw [isStoredFor, isStoredFor, (h.stored hkey hlog).2.1]
    have hread : s.readStored w' id f = s.readStored w id f := by
      rw [readStored, readStored, h.read hkey hlog]
    dsimp only
    rw [hstored, hread]
    split
    · rfl
    · rfl
    · split
      · exact recompute_alike hrespects h hout f
      · rfl

end Read

/-! ## Taking an entity in -/

/-- The storage keys of the features of an entity. -/
def Owns (s : Schema) (id key : String) : Prop :=
  ∃ f ∈ s.features.values, key = s.scheme.build id f.key

section Process

variable {s : Schema} {id : String} {inputs : Inputs} {w : Workspace}

/-- A run of a full graph changes nothing elsewhere: what its writers commit, they commit under the
keys of their features. -/
theorem Compiled.sameElsewhere {features : Dictionary Feature} {scheme : KeyScheme}
    {g : Graph Workspace} (h : Compiled features scheme id g) {keys : String → Prop}
    (hkeys : ∀ f ∈ features.values, keys (scheme.build id f.key))
    (hdetached : ∀ f ∈ features.values, f.component.Detached (Workspace.SameElsewhere keys))
    {result : Except GraphError Unit} {all : Bool} {r₁ r₂ r₃ : Run Workspace}
    (hcourse : g.Course w result all r₁ r₂ r₃) : w.SameElsewhere keys r₃.world := by
  refine hcourse.releases.world (Run.nodup_idsOf ..) (I := w.SameElsewhere keys)
    (fun m hm n₂ hn₂ w' hw' => hw'.trans ?_) (h.keeps .refl .trans hdetached hcourse)
  obtain ⟨n, hn, hcomponent⟩ := node_before hcourse hn₂
  rcases h.detached_or_writes .refl hdetached hn with hd | ⟨f, hf, -, -, hwrites⟩
  · rw [← hcomponent] at hd
    exact hd.release ..
  · -- a writer: its session commits under the key of its feature, or not at all
    obtain ⟨n₂', hn₂', hacquired⟩ := Run.mem_idsOf.mp hm
    rw [hn₂] at hn₂'
    cases hn₂'
    obtain ⟨u, -, hsite⟩ := hwrites
    obtain ⟨n', hn', hc, hneeds⟩ := node_of_site hsite
    obtain ⟨session, writer, hholds, hwriter, hkey, -⟩ :=
      hcourse.session h.built.ready hn' hc hneeds hn₂ hacquired
    rw [(hholds.release w').2]
    exact Workspace.sameElsewhere_release hwriter (hkey ▸ hkeys f hf) w'

/-- Taking an entity in changes nothing but what is stored for that entity, however it ends. -/
theorem process_sameElsewhere (hid : (w.newId s.idSource inputs).1 = .ok id)
    (hdetached : ∀ f ∈ s.features.values,
      f.component.Detached (Workspace.SameElsewhere (s.Owns id))) :
    w.SameElsewhere (s.Owns id) (s.process inputs w).2 := by
  have hnew : w.SameElsewhere (s.Owns id) (w.newId s.idSource inputs).2 :=
    Workspace.sameElsewhere_newId w s.idSource inputs
  rcases s.process_cases inputs w with
    ⟨id', g, result, all, r₁, r₂, r₃, hstarts, hcompiled, hcourse, -, hworld⟩ | ⟨-, hworld⟩
  · obtain rfl : id' = id := Except.ok.inj (hstarts.1.symm.trans hid)
    rw [hworld]
    exact hnew.trans (hcompiled.sameElsewhere (fun f hf => ⟨f, hf, rfl⟩) hdetached hcourse)
  · rw [hworld]
    exact hnew

variable {name sep : String} {idSource : IdSource} {declarations : List Feature}

/-- No feature of an entity has the key of another entity's feature. -/
theorem not_owns_of_ne (hsep : sep.length = 1)
    (hbuild : build name (.delimited sep) idSource declarations = .ok s) {other : String}
    (hne : id ≠ other) {key : String} (hkey : s.scheme.validate key = .ok ()) :
    ¬ s.Owns id (s.scheme.build other key) := by
  rintro ⟨f, hf, heq⟩
  have hvalid := validate_build hbuild hf
  obtain ⟨features, -, rfl⟩ := build_eq_ok hbuild
  have hfree : ∀ feature, ¬ KeyScheme.Completes sep feature := fun feature h =>
    KeyScheme.not_bordered_of_length_eq_one hsep h.bordered
  exact hne (KeyScheme.eq_of_build_eq hkey hvalid (hfree key) (hfree f.key) heq).1.symm

/-- Entities do not interfere. Taking one in, however it ends, leaves what is stored under each key
of another as it was, and whatever feature a fresh handle is asked for, it answers for the other
entity as before. -/
theorem neighbours_are_left_alone (hsep : sep.length = 1)
    (hbuild : build name (.delimited sep) idSource declarations = .ok s) {other : String}
    (hne : id ≠ other) (hid : (w.newId s.idSource inputs).1 = .ok id)
    (hdetached : ∀ f ∈ s.features.values,
      f.component.Detached (Workspace.SameElsewhere (s.Owns id)))
    (hrespects : ∀ f ∈ s.features.values, f.isRoot = false →
      f.component.Respects (Workspace.SameElsewhere (s.Owns id))) :
    (∀ key, s.scheme.validate key = .ok () → ¬ w.KeepsLogAt (s.scheme.build other key) →
      (s.process inputs w).2.held? (s.scheme.build other key) =
        w.held? (s.scheme.build other key)) ∧
    ((∀ f ∈ s.features.values, ¬ w.KeepsLogAt (s.scheme.build other f.key)) →
      ∀ key, ((Entity.new other).get s key (s.process inputs w).2).1 =
        ((Entity.new other).get s key w).1) := by
  have hsame := process_sameElsewhere hid hdetached
  refine ⟨fun key hkey hlog => ?_, fun hlog key => ?_⟩
  · exact (hsame.stored (not_owns_of_ne hsep hbuild hne hkey) hlog).1
  · have hout : s.Elsewhere (s.Owns id) w other := fun f hf =>
      ⟨not_owns_of_ne hsep hbuild hne (validate_build hbuild hf), hlog f hf⟩
    rw [get_new, get_new]
    exact read_alike hrespects hsame hout key

/-! ## A neighbour whose id looks like a storage key -/

/-- The entity `e:b`, beside the entity `e`. -/
def besideInputs : Inputs := (Dictionary.empty.insert "a" (.text "y")).insert "id" (.text "e:b")

theorem echoing_respects (keys : String → Prop) : ∀ f ∈ echoing.features.values,
    f.isRoot = false → f.component.Respects (Workspace.SameElsewhere keys) := by
  intro f hf hroot
  rcases mem_echoing hf with rfl | rfl | rfl
  · cases hroot
  · exact Component.stateless_respects _
  · exact Component.stateless_respects _

/-- The value `e:b` of the entity `e` stays when `e:b` is taken in as an entity, and so does what is
worked out of it. -/
theorem echo_is_left_alone :
    ":".length = 1 ∧ build "s" (.delimited ":") (.input "id") [text, mute, echo] = .ok echoing ∧
      "e:b" ≠ "e" ∧ (halfStored.newId echoing.idSource besideInputs).1 = .ok "e:b" ∧
      (echoing.process besideInputs halfStored).2.held? "e:b:a" =
        some (Text.encode "y", some octetStream) ∧
      (echoing.process besideInputs halfStored).2.held? "e:b" =
        some (Text.encode "x", some octetStream) ∧
      ((Entity.new "e").get echoing "c" (echoing.process besideInputs halfStored).2).1 =
        .ok (.bytes (Text.encode "x")) := by
  have hlength : ":".length = 1 := by decide
  have hbuild : build "s" (.delimited ":") (.input "id") [text, mute, echo] = .ok echoing := rfl
  have hne : "e:b" ≠ "e" := by decide
  have hid : (halfStored.newId echoing.idSource besideInputs).1 = .ok "e:b" := rfl
  have hlog : ∀ key, ¬ halfStored.KeepsLogAt key := by
    rintro key ⟨root, ⟨⟩⟩
  obtain ⟨hheld, hget⟩ := neighbours_are_left_alone hlength hbuild hne hid
    (Entity.echoing_detached .refl) (echoing_respects _)
  refine ⟨hlength, hbuild, hne, hid, by decide +kernel, ?_, ?_⟩
  · exact (hheld "b" rfl (hlog _)).trans (by decide +kernel)
  · rw [hget (fun f _ => hlog _)]
    exact eq_of_bytesRead? (by decide +kernel)

end Process

end Schema

end FeatureGraph
