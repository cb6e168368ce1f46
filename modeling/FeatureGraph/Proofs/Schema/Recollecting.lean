-- What reading a feature takes. A partial graph is made of features that have
-- needs, of what reads stored features back, and of what encodes and keeps the
-- target. There is no writer among them: so reading leaves of the workspace
-- what the features leave of it, but for streams and captures.
import FeatureGraph.Proofs.Reliable
import FeatureGraph.Proofs.Schema.Drafting
import FeatureGraph.Proofs.Schema.Storing
import FeatureGraph.Schema.Entity

namespace FeatureGraph

namespace Schema

open Procedure

/-! ## What a partial graph is made of -/

/-- The components of partial graphs. -/
inductive Part (features : Dictionary Feature) (slot : Nat) : Component Workspace → Prop
  | replay (d : Decoder) : Part features slot (Component.replay d)
  | feature {f : Feature} : f ∈ features.values → f.isRoot = false →
      Part features slot f.component
  | encoding (e : Encoder) : Part features slot (Component.encoding e)
  | capture : Part features slot (Component.capture slot)

/-- A draft with no other components, where every feature that is read back is declared. -/
structure Draft.MadeOf (features : Dictionary Feature) (slot : Nat) (d : Draft) : Prop where
  built : d.graph.Built
  parts : ∀ site ∈ d.sites, Part features slot site.component
  sources : ∀ key ∈ d.sources, ∃ f ∈ features.values, f.key = key

section Parts

variable {features : Dictionary Feature} {scheme : KeyScheme} {w : Workspace} {id : String}
  {slot : Nat} {d : Draft} {f : Feature}

theorem Draft.madeOf_empty (name : String) : (Draft.empty name).MadeOf features slot :=
  ⟨.empty name, by simp [Draft.sites, Draft.empty, Graph.empty, sitesOf],
    by simp [Draft.empty]⟩

theorem ensures_addNode {key : String} {c : Component Workspace} {needs : List Nat}
    (hc : Part features slot c) (h : d.MadeOf features slot) :
    (Draft.addNode key c needs).Ensures d (fun _ d' => d'.MadeOf features slot) fun _ => True := by
  unfold Ensures Draft.addNode
  cases hadd : d.graph.add key c needs with
  | error e => trivial
  | ok added =>
    refine ⟨h.built.add hadd, ?_, h.sources⟩
    rw [Draft.sites, (Graph.sitesOf_add hadd).1]
    exact List.forall_mem_append.mpr ⟨h.parts, List.forall_mem_singleton.mpr hc⟩

theorem ensures_collectAll {α β : Type} {I : Draft → Prop} {add : α → Drafting β}
    (hadd : ∀ x d, I d → (add x).Ensures d (fun _ d' => I d') fun _ => True) (xs : List α)
    (h : I d) : (collectAll add xs).Ensures d (fun _ d' => I d') fun _ => True := by
  induction xs generalizing d with
  | nil => exact ensures_pure h
  | cons x rest ih =>
    refine ensures_bind ((hadd x d h).mono (fun y d' h' => ?_) fun _ h => h)
    exact ensures_bind ((ih h').mono (fun ys d'' h'' => ensures_pure h'') fun _ h => h)

theorem ensures_withFeature {I : Draft → Prop} {α : Type} {key : String}
    {add : Feature → Drafting α}
    (hadd : ∀ f ∈ features.values, (add f).Ensures d (fun _ d' => I d') fun _ => True) :
    (withFeature features key add).Ensures d (fun _ d' => I d') fun _ => True := by
  unfold withFeature
  cases hf : features.get? key with
  | none => trivial
  | some f => exact hadd f (Dictionary.mem_values.mpr ⟨key, hf⟩)

theorem ensures_stored {α : Type} {k : Bool → Drafting α} {good : α → Draft → Prop}
    (target : Bool) (h : ∀ stored, (k stored).Ensures d good fun _ => True) :
    (if target then pure false >>= k
      else Procedure.ofExcept (isStoredFor scheme w id f.key) >>= k).Ensures d good
        fun _ => True := by
  split
  · exact ensures_bind (ensures_pure (h false))
  · refine ensures_bind ?_
    unfold Ensures Procedure.ofExcept
    cases isStoredFor scheme w id f.key with
    | error e => trivial
    | ok stored => exact h stored

theorem ensures_placed {key : String} {c : Component Workspace} {needs : List Nat}
    (hc : Part features slot c) (h : d.MadeOf features slot) :
    (do
      let node ← Draft.addNode key c needs
      Draft.place key node
      pure node : Drafting Nat).Ensures d (fun _ d' => d'.MadeOf features slot) fun _ => True := by
  refine ensures_bind ((ensures_addNode hc h).mono (fun m d' h' => ?_) fun _ h => h)
  exact ensures_bind (ensures_change (ensures_pure ⟨h'.built, h'.parts, h'.sources⟩))

/-- By induction on how deep the needs may go: what is needed is added in the same way. -/
theorem ensures_addPartial (hf : f ∈ features.values) (depth : Nat) (target : Bool)
    (h : d.MadeOf features slot) :
    (addPartial features scheme w id depth target f).Ensures d
      (fun _ d' => d'.MadeOf features slot) fun _ => True := by
  induction depth generalizing target f d with
  | zero => trivial
  | succ depth ih =>
    rw [addPartial]
    refine ensures_bind (ensures_view ?_)
    cases d.placed.lookup f.key with
    | some node => exact ensures_pure h
    | none =>
      refine ensures_stored target fun stored => ?_
      cases stored with
      | true =>
        refine ensures_bind (ensures_change (ensures_placed (.replay f.decoder) ?_))
        exact ⟨h.built, h.parts,
          List.forall_mem_append.mpr ⟨h.sources, List.forall_mem_singleton.mpr ⟨f, hf, rfl⟩⟩⟩
      | false =>
        cases hroot : f.isRoot with
        | true => trivial
        | false =>
          have hneeds : (collectAll (fun key => withFeature features key
              (addPartial features scheme w id depth false)) f.needs).Ensures d
              (fun _ d' => d'.MadeOf features slot) fun _ => True :=
            ensures_collectAll (fun key d h => ensures_withFeature fun g hg => ih hg false h)
              f.needs h
          refine ensures_bind (hneeds.mono (fun needs d' h' => ?_) fun _ h => h)
          exact ensures_placed (.feature hf hroot) h'

/-- Whatever is stored, a partial graph has no writer. -/
theorem madeOf_partialGraph {schema target : String} {plan : PartialGraph}
    (h : partialGraph schema features scheme w id target slot = .ok plan) :
    plan.graph.Built ∧
      (∀ {m : Nat} {n}, plan.graph.nodes[m]? = some n → Part features slot n.component) ∧
      ∀ key ∈ plan.sources, ∃ f ∈ features.values, f.key = key := by
  have hdraft : (withFeature features target fun f => do
      let node ← addPartial features scheme w id (features.size + 1) true f
      let encoder ← Draft.addNode (encoderKey target) (Component.encoding f.encoder) [node]
      let _ ← Draft.addNode (captureKey target) (Component.capture slot) [encoder]
      pure () : Drafting Unit).Ensures (Draft.empty (schema ++ ":" ++ id ++ ":" ++ target))
      (fun _ d => d.MadeOf features slot) fun _ => True := by
    refine ensures_withFeature fun f hf => ?_
    have hempty : (Draft.empty (schema ++ ":" ++ id ++ ":" ++ target)).MadeOf features slot :=
      Draft.madeOf_empty _
    refine ensures_bind ((ensures_addPartial hf _ true hempty).mono (fun node d h => ?_)
      fun _ h => h)
    refine ensures_bind ((ensures_addNode (.encoding f.encoder) h).mono (fun encoder d h => ?_)
      fun _ h => h)
    exact ensures_bind ((ensures_addNode .capture h).mono (fun _ d h => ensures_pure h)
      fun _ h => h)
  unfold Ensures at hdraft
  unfold partialGraph at h
  dsimp only at h
  split at hdraft
  · rename_i d _ heq
    rw [heq] at h
    cases h
    refine ⟨hdraft.built, fun {m n} hn => ?_, hdraft.sources⟩
    exact hdraft.parts n.site (List.mem_map_of_mem (List.mem_of_getElem? hn))
  · rename_i heq
    rw [heq] at h
    cases h

end Parts

/-! ## What reading leaves of the workspace -/

section Keeps

variable {P : Workspace → Workspace → Prop} {features : Dictionary Feature} {slot : Nat}
  {c : Component Workspace}

/-- A relation that streams and captures are no part of. -/
structure Lasting (P : Workspace → Workspace → Prop) : Prop where
  holds : ∀ {w w'}, Workspace.SameHoldings w w' → P w w'
  trans : ∀ {a b c}, P a b → P b c → P a c

theorem Lasting.refl (h : Lasting P) (w : Workspace) : P w w := h.holds (.refl w)

theorem replay_detached (h : Lasting P) (d : Decoder) : (Component.replay d).Detached P where
  enqueue _ _ _ _ w := h.refl w
  dequeue _ _ _ w := h.refl w
  transform data s w := by
    unfold Component.replay
    dsimp only
    cases data with
    | stored stream =>
      dsimp only [Workspace.takeStream]
      cases w.streams[stream]?.join with
      | none => exact h.holds ⟨rfl, rfl, rfl, rfl⟩
      | some source =>
        dsimp only
        cases d.stream source with
        | error e => exact h.holds ⟨rfl, rfl, rfl, rfl⟩
        | ok out => exact h.holds ⟨rfl, rfl, rfl, rfl⟩
    | _ => exact h.refl w
  lastChunk _ w := h.refl w
  acquire _ w := h.refl w
  release _ w := h.refl w

theorem capture_detached (h : Lasting P) (slot : Nat) : (Component.capture slot).Detached P where
  enqueue _ _ _ _ w := h.refl w
  dequeue _ _ _ w := h.refl w
  transform data s w := by
    unfold Component.capture
    dsimp only
    cases data.bytes? with
    | none => exact h.refl w
    | some bs => exact h.holds ⟨rfl, rfl, rfl, rfl⟩
  lastChunk _ w := h.refl w
  acquire _ w := h.refl w
  release _ w := h.refl w

theorem Part.detached (h : Lasting P)
    (hfeatures : ∀ f ∈ features.values, f.isRoot = false → f.component.Detached P)
    (hc : Part features slot c) : c.Detached P := by
  cases hc with
  | replay d => exact replay_detached h d
  | feature hf hroot => exact hfeatures _ hf hroot
  | encoding e => exact Component.encoding_detached h.refl e
  | capture => exact capture_detached h slot

/-- A run leaves of the workspace what all of its nodes leave of it. -/
theorem process_keeps {g : Graph Workspace} (h : Lasting P) (hready : g.Ready)
    (hdetached : ∀ (m : Nat) n, g.nodes[m]? = some n → n.component.Detached P) (inputs : Inputs)
    (w : Workspace) : P w (g.process inputs w).2.1 := by
  by_cases hinputs : (g.roots.all fun root => inputs.contains root.1) = true
  · obtain ⟨all, r₁, r₂, r₃, hcourse, hrun⟩ := Graph.course hready w hinputs
    have hworld : (g.process inputs w).2.1 = r₃.world := congrArg (fun left => left.2.1) hrun
    have hdriven : P w r₂.world :=
      keeps_of_gentle h.refl h.trans (fun m n hn => (hdetached m n hn).toGentle) hcourse
    rw [hworld]
    refine hcourse.releases.world (Run.nodup_idsOf ..) (I := P w) (fun m _ n₂ hn₂ w' hw' => ?_)
      hdriven
    obtain ⟨n, hn, hcomponent⟩ := node_before hcourse hn₂
    exact h.trans hw' ((hcomponent ▸ hdetached m n hn : n₂.component.Detached P).release ..)
  · rw [Graph.process, Graph.run_missing w hinputs]
    exact h.refl w

variable {s : Schema}

theorem openSources_keeps (h : Lasting P) (id : String) (keys : List String) (inputs : Inputs)
    (w : Workspace) : P w (s.openSources id keys inputs w).2 := by
  induction keys generalizing inputs w with
  | nil => exact h.refl w
  | cons key rest ih =>
    rw [openSources]
    cases w.read (s.scheme.build id key) with
    | error e => exact h.refl w
    | ok source =>
      have hheld : P w (w.holdStream source).2 := h.holds ⟨rfl, rfl, rfl, rfl⟩
      exact h.trans hheld (ih _ _)

variable (h : Lasting P)
  (hfeatures : ∀ f ∈ s.features.values, f.isRoot = false → f.component.Detached P)

include h hfeatures

theorem recompute_keeps (w : Workspace) (id : String) (f : Feature) :
    P w (s.recompute w id f).2 := by
  have hcapture : P w w.newCapture.2 := h.holds ⟨rfl, rfl, rfl, rfl⟩
  unfold recompute
  rcases hnew : w.newCapture with ⟨slot, w₁⟩
  rw [hnew] at hcapture
  dsimp only at hcapture ⊢
  cases hplan : partialGraph s.name s.features s.scheme w₁ id f.key slot with
  | error e => exact hcapture
  | ok plan =>
    obtain ⟨hbuilt, hparts, -⟩ := madeOf_partialGraph hplan
    have hopen : P w (s.openSources id plan.sources Dictionary.empty w₁).2 :=
      h.trans hcapture (openSources_keeps h id plan.sources Dictionary.empty w₁)
    dsimp only
    rcases hopens : s.openSources id plan.sources Dictionary.empty w₁ with ⟨e | inputs, w₂⟩
    all_goals rw [hopens] at hopen
    · exact hopen
    · have hrun : P w (plan.graph.process inputs w₂).2.1 := h.trans hopen
        (process_keeps h hbuilt.ready (fun m n hn => (hparts hn).detached h hfeatures) inputs w₂)
      dsimp only
      rcases hruns : plan.graph.process inputs w₂ with ⟨g, w₃, e | _⟩
      all_goals rw [hruns] at hrun
      · exact hrun
      · exact hrun

/-- Reading a feature, whether it is stored or worked out again, and whether that fails or not,
leaves of the workspace what the features leave of it. -/
theorem read_keeps (w : Workspace) (id key : String) : P w (s.read w id key).2 := by
  unfold read
  cases s.feature key with
  | error e => exact h.refl w
  | ok f =>
    dsimp only
    split
    · exact h.refl w
    · exact h.refl w
    · split
      · exact recompute_keeps h hfeatures w id f
      · exact h.refl w

end Keeps

end Schema

end FeatureGraph
