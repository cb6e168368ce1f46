-- What a full graph is made of. Every node works a feature out, encodes one
-- that is stored, or writes one; what a node needs are the nodes before it in
-- that chain. Pruning takes none of this away.
import FeatureGraph.Proofs.Dictionary
import FeatureGraph.Proofs.Graph.Wiring
import FeatureGraph.Proofs.Procedure
import FeatureGraph.Schema.Compile

namespace FeatureGraph

variable {W : Type}

/-! ## What is fixed when a node is added -/

/-- What a node is and what it needs, as it was added. -/
structure Site (W : Type) : Type 1 where
  key : String
  component : Component W
  needs : List Nat

def Node.site (n : Node W) : Site W := ⟨n.key, n.component, n.needs⟩

/-- The sites of a graph, by the numbers of its nodes. -/
def sitesOf (nodes : List (Node W)) : List (Site W) := nodes.map Node.site

theorem sitesOf_getElem? {nodes : List (Node W)} {m : Nat} {site : Site W} :
    (sitesOf nodes)[m]? = some site ↔ ∃ n, nodes[m]? = some n ∧ n.site = site := by
  rw [sitesOf, List.getElem?_map, Option.map_eq_some_iff]

theorem sitesOf_modify {nodes : List (Node W)} {i : Nat} {f : Node W → Node W}
    (hf : ∀ n, (f n).site = n.site) : sitesOf (nodes.modify i f) = sitesOf nodes :=
  Graph.map_modify hf

theorem sitesOf_foldl_modify {nodes : List (Node W)} {needs : List Nat} {f : Node W → Node W}
    (hf : ∀ n, (f n).site = n.site) :
    sitesOf (needs.foldl (fun nodes p => nodes.modify p f) nodes) = sitesOf nodes :=
  Graph.map_foldl_modify hf

namespace Graph

variable {g g' : Graph W}

theorem sitesOf_add {key : String} {c : Component W} {needs : List Nat} {id : Nat}
    (h : g.add key c needs = .ok (id, g')) :
    sitesOf g'.nodes = sitesOf g.nodes ++ [⟨key, c, needs⟩] ∧ id = (sitesOf g.nodes).length := by
  obtain ⟨rfl, -, -, rfl⟩ := add_eq_ok h
  have hlisten : sitesOf (needs.foldl (listen g.nodes.length) g.nodes) = sitesOf g.nodes :=
    sitesOf_foldl_modify fun _ => rfl
  refine ⟨?_, by rw [sitesOf, List.length_map]⟩
  rw [← hlisten]
  simp [sitesOf, Node.site, Node.new]

theorem sitesOf_pruneOne (g : Graph W) (c : Candidate) :
    sitesOf (g.pruneOne c).1.nodes = sitesOf g.nodes := by
  unfold pruneOne
  split
  · rfl
  · split
    · rfl
    · rename_i id _ _ n _
      split
      · rfl
      · have hcut : sitesOf (g.unlink id n.needs).nodes = sitesOf g.nodes :=
          sitesOf_foldl_modify fun _ => rfl
        exact (sitesOf_modify (f := fun n => { n with pruned := true }) fun _ => rfl).trans hcut

theorem sitesOf_pruneRound (cs : List Candidate) (g : Graph W) :
    sitesOf (g.pruneRound cs).1.nodes = sitesOf g.nodes := by
  induction cs generalizing g with
  | nil => rfl
  | cons c rest ih => exact (ih (g.pruneOne c).1).trans (sitesOf_pruneOne g c)

/-- Pruning changes no node but in whom it listens to. -/
theorem sitesOf_prune (g : Graph W) (cs : List Candidate) :
    sitesOf (g.prune cs).1.nodes = sitesOf g.nodes := by
  unfold prune
  generalize g.nodes.length + 1 = fuel
  induction fuel generalizing g with
  | zero => rfl
  | succ fuel ih =>
    have hround := sitesOf_pruneRound cs g
    unfold pruneRounds
    split
    · rename_i heq
      rw [heq] at hround
      exact hround
    · rename_i heq
      rw [heq] at hround
      exact (ih _).trans hround

end Graph

namespace Schema

variable {features : Dictionary Feature} {scheme : KeyScheme} {id : String}
  {sites more : List (Site Workspace)} {f : Feature} {m : Nat}

/-! ## The chain of a feature -/

/-- The node of this number has the key of a feature. -/
def Stands (sites : List (Site Workspace)) (key : String) (m : Nat) : Prop :=
  ∃ site, sites[m]? = some site ∧ site.key = key

/-- The node works the feature out. It needs the nodes of the features that the feature needs,
in the same order. -/
def WorksOut (features : Dictionary Feature) (sites : List (Site Workspace)) (f : Feature)
    (m : Nat) : Prop :=
  ∃ needs, sites[m]? = some ⟨f.key, f.component, needs⟩ ∧
    List.Forall₂ (fun u key => ∃ p, features.get? key = some p ∧ Stands sites p.key u) needs f.needs

/-- The node encodes what works the feature out. -/
def Encodes (features : Dictionary Feature) (sites : List (Site Workspace)) (f : Feature)
    (m : Nat) : Prop :=
  ∃ u, WorksOut features sites f u ∧
    sites[m]? = some ⟨encoderKey f.key, Component.encoding f.encoder, [u]⟩

/-- The node writes what encodes the feature. -/
def Writes (features : Dictionary Feature) (scheme : KeyScheme) (id : String)
    (sites : List (Site Workspace)) (f : Feature) (m : Nat) : Prop :=
  ∃ u, Encodes features sites f u ∧
    sites[m]? = some ⟨writerKey f.key, Component.storing (destination scheme id f), [u]⟩

/-- What a node of a full graph is there for. -/
def Serves (features : Dictionary Feature) (scheme : KeyScheme) (id : String)
    (sites : List (Site Workspace)) (m : Nat) : Prop :=
  ∃ f ∈ features.values, WorksOut features sites f m ∨
    (f.isStored = true ∧ (Encodes features sites f m ∨ Writes features scheme id sites f m))

/-- A feature of this key is worked out at the node of this number, and written if it is stored. -/
def Supplied (features : Dictionary Feature) (scheme : KeyScheme) (id : String)
    (sites : List (Site Workspace)) (key : String) (m : Nat) : Prop :=
  ∃ f ∈ features.values, f.key = key ∧ WorksOut features sites f m ∧
    (f.isStored = true → ∃ k, Writes features scheme id sites f k)

/-! Nodes that are added later change nothing of this. -/

theorem getElem?_append {site : Site Workspace} (h : sites[m]? = some site) :
    (sites ++ more)[m]? = some site := by
  rw [List.getElem?_append_left (List.getElem?_eq_some_iff.mp h).1]
  exact h

theorem Stands.append {key : String} (h : Stands sites key m) : Stands (sites ++ more) key m := by
  obtain ⟨site, hsite, hkey⟩ := h
  exact ⟨site, getElem?_append hsite, hkey⟩

theorem WorksOut.append (h : WorksOut features sites f m) :
    WorksOut features (sites ++ more) f m := by
  obtain ⟨needs, hsite, hneeds⟩ := h
  refine ⟨needs, getElem?_append hsite, hneeds.imp fun u key ⟨p, hp, hu⟩ => ⟨p, hp, hu.append⟩⟩

theorem WorksOut.stands (h : WorksOut features sites f m) : Stands sites f.key m := by
  obtain ⟨needs, hsite, -⟩ := h
  exact ⟨_, hsite, rfl⟩

theorem Encodes.append (h : Encodes features sites f m) : Encodes features (sites ++ more) f m := by
  obtain ⟨u, hu, hsite⟩ := h
  exact ⟨u, hu.append, getElem?_append hsite⟩

theorem Writes.append (h : Writes features scheme id sites f m) :
    Writes features scheme id (sites ++ more) f m := by
  obtain ⟨u, hu, hsite⟩ := h
  exact ⟨u, hu.append, getElem?_append hsite⟩

theorem Serves.append (h : Serves features scheme id sites m) :
    Serves features scheme id (sites ++ more) m := by
  obtain ⟨f, hf, hserves⟩ := h
  refine ⟨f, hf, hserves.imp WorksOut.append fun ⟨hstored, hchain⟩ => ⟨hstored, ?_⟩⟩
  exact hchain.imp Encodes.append Writes.append

theorem Supplied.append {key : String} (h : Supplied features scheme id sites key m) :
    Supplied features scheme id (sites ++ more) key m := by
  obtain ⟨f, hf, hkey, hworks, hwritten⟩ := h
  exact ⟨f, hf, hkey, hworks.append, fun hstored => (hwritten hstored).imp fun _ hk => hk.append⟩

theorem Supplied.stands {key : String} (h : Supplied features scheme id sites key m) :
    Stands sites key m := by
  obtain ⟨f, -, rfl, hworks, -⟩ := h
  exact hworks.stands

/-! ## Drafts -/

/-- What holds of the graph of a draft at any time. -/
structure Laid (features : Dictionary Feature) (scheme : KeyScheme) (id : String)
    (g : Graph Workspace) : Prop where
  built : g.Built
  intact : (wiringOf g.nodes).Intact
  serves : ∀ m < (sitesOf g.nodes).length, Serves features scheme id (sitesOf g.nodes) m

/-- And the features that were met so far are in it with all their nodes. -/
structure Planned (features : Dictionary Feature) (scheme : KeyScheme) (id : String)
    (d : Draft) : Prop extends Laid features scheme id d.graph where
  placed : ∀ {key m}, d.placed.lookup key = some m →
    Supplied features scheme id (sitesOf d.graph.nodes) key m

/-- While the nodes of one feature are added, the features that were met so far stay the same. -/
structure Adding (features : Dictionary Feature) (scheme : KeyScheme) (id : String)
    (placed : List (String × Nat)) (d : Draft) : Prop extends Laid features scheme id d.graph where
  placed : d.placed = placed

/-- Work on a draft that keeps an invariant and only adds nodes, and answers as `good` says. -/
def Drafts {α : Type} (I : Draft → Prop) (p : Drafting α) (d : Draft)
    (good : α → List (Site Workspace) → Prop) : Prop :=
  p.Ensures d (fun a d' => I d' ∧ sitesOf d.graph.nodes <+: sitesOf d'.graph.nodes ∧
    good a (sitesOf d'.graph.nodes)) fun _ => True

section Rules

variable {I : Draft → Prop} {d : Draft} {placed : List (String × Nat)}

theorem drafts_bind {α β : Type} {p : Drafting α} {q : α → Drafting β}
    {good : α → List (Site Workspace) → Prop} {good' : β → List (Site Workspace) → Prop}
    (hp : Drafts I p d good)
    (hq : ∀ a d', I d' → good a (sitesOf d'.graph.nodes) →
      sitesOf d.graph.nodes <+: sitesOf d'.graph.nodes → Drafts I (q a) d' good') :
    Drafts I (p >>= q) d good' := by
  refine Procedure.ensures_bind (hp.mono (fun a d' ⟨hI, hmore, hgood⟩ => ?_) fun _ h => h)
  exact (hq a d' hI hgood hmore).mono
    (fun b d'' ⟨hI', hmore', hgood'⟩ => ⟨hI', hmore.trans hmore', hgood'⟩) fun _ h => h

theorem drafts_pure {α : Type} {a : α} {good : α → List (Site Workspace) → Prop}
    (h : I d) (hgood : good a (sitesOf d.graph.nodes)) : Drafts I (pure a) d good :=
  ⟨h, List.prefix_rfl, hgood⟩

/-- A node is added that serves a feature. -/
theorem adding_addNode {key : String} {c : Component Workspace} {needs : List Nat}
    (h : Adding features scheme id placed d)
    (hserves : Serves features scheme id (sitesOf d.graph.nodes ++ [⟨key, c, needs⟩])
      (sitesOf d.graph.nodes).length) :
    Drafts (Adding features scheme id placed) (Draft.addNode key c needs) d fun m sites =>
      m = (sitesOf d.graph.nodes).length ∧ sites = sitesOf d.graph.nodes ++ [⟨key, c, needs⟩] := by
  unfold Drafts Procedure.Ensures Draft.addNode
  cases hadd : d.graph.add key c needs with
  | error e => trivial
  | ok result =>
    obtain ⟨m, graph⟩ := result
    obtain ⟨hsites, hm⟩ := Graph.sitesOf_add hadd
    refine ⟨⟨⟨h.built.add hadd, ?_, ?_⟩, h.placed⟩, ?_, hm, hsites⟩
    · obtain ⟨rfl, hneeds, -, rfl⟩ := Graph.add_eq_ok hadd
      exact h.intact.append h.built.ready.wired _ _ hneeds rfl
    · dsimp only
      rw [hsites, List.length_append]
      intro m hm
      rcases Nat.lt_succ_iff_lt_or_eq.mp hm with hm | rfl
      · exact (h.serves m hm).append
      · exact hserves
    · dsimp only
      rw [hsites]
      exact List.prefix_append ..

/-- What adds nodes only leaves the features that were met before with all their nodes. -/
theorem Drafts.planned {α : Type} {p : Drafting α} {good : α → List (Site Workspace) → Prop}
    (h : Planned features scheme id d)
    (hp : Drafts (Adding features scheme id d.placed) p d good) :
    Drafts (Planned features scheme id) p d good := by
  refine hp.mono (fun a d' ⟨hadding, hmore, hgood⟩ => ⟨⟨hadding.toLaid, ?_⟩, hmore, hgood⟩)
    fun _ h => h
  intro key m hplaced
  rw [hadding.placed] at hplaced
  obtain ⟨more, hmore⟩ := hmore
  exact hmore ▸ (h.placed hplaced).append

theorem drafts_placed (h : Planned features scheme id d) (key : String) :
    Drafts (Planned features scheme id) (Draft.placed? key) d fun placed sites =>
      ∀ m, placed = some m → Supplied features scheme id sites key m :=
  ⟨h, List.prefix_rfl, fun _ hplaced => h.placed hplaced⟩

theorem adding_addWriter (hf : f ∈ features.values) (hstored : f.isStored = true)
    (h : Adding features scheme id placed d) (hm : WorksOut features (sitesOf d.graph.nodes) f m) :
    Drafts (Adding features scheme id placed) (addWriter scheme id f m) d fun _ sites =>
      ∃ k, Writes features scheme id sites f k := by
  have hencodes : Encodes features (sitesOf d.graph.nodes ++
      [⟨encoderKey f.key, Component.encoding f.encoder, [m]⟩]) f (sitesOf d.graph.nodes).length :=
    ⟨m, hm.append, List.getElem?_concat_length⟩
  refine drafts_bind (adding_addNode h ⟨f, hf, Or.inr ⟨hstored, Or.inl hencodes⟩⟩) ?_
  rintro _ d' hadding ⟨rfl, hsites⟩ -
  rw [← hsites] at hencodes
  have hwrites : Writes features scheme id (sitesOf d'.graph.nodes ++
      [⟨writerKey f.key, Component.storing (destination scheme id f),
        [(sitesOf d.graph.nodes).length]⟩]) f (sitesOf d'.graph.nodes).length :=
    ⟨_, hencodes.append, List.getElem?_concat_length⟩
  refine drafts_bind (adding_addNode hadding ⟨f, hf, Or.inr ⟨hstored, Or.inr hwrites⟩⟩) ?_
  rintro _ d'' hadding' ⟨rfl, hsites'⟩ -
  exact drafts_pure hadding' ⟨_, hsites'.symm ▸ hwrites⟩

/-- Once its node is there, a feature is remembered, and written if it is stored. -/
theorem drafts_settle (hf : f ∈ features.values) (h : Planned features scheme id d)
    (hm : WorksOut features (sitesOf d.graph.nodes) f m) :
    Drafts (Planned features scheme id) (do
      Draft.place f.key m
      if f.isStored then addWriter scheme id f m else pure ()
      pure m) d fun m sites => Supplied features scheme id sites f.key m := by
  have hrest : Drafts (Adding features scheme id ((f.key, m) :: d.placed)) (do
      if f.isStored then addWriter scheme id f m else pure ()
      pure m) { d with placed := (f.key, m) :: d.placed } fun m' sites =>
        m' = m ∧ Supplied features scheme id sites f.key m := by
    have hadding : Adding features scheme id ((f.key, m) :: d.placed)
        { d with placed := (f.key, m) :: d.placed } := ⟨h.toLaid, rfl⟩
    split
    · rename_i hstored
      refine drafts_bind (adding_addWriter hf hstored hadding hm) ?_
      rintro - d' hadding' ⟨k, hk⟩ ⟨more, hmore⟩
      exact drafts_pure hadding' ⟨rfl, f, hf, rfl, hmore ▸ hm.append, fun _ => ⟨k, hk⟩⟩
    · rename_i hnot
      exact drafts_pure hadding ⟨rfl, f, hf, rfl, hm, fun hstored => absurd hstored hnot⟩
  refine hrest.mono (fun m' d' ⟨hadding, hmore, heq, hsupplied⟩ => ?_) fun _ h => h
  subst heq
  refine ⟨⟨hadding.toLaid, fun {key k} hplaced => ?_⟩, hmore, hsupplied⟩
  rw [hadding.placed, List.lookup_cons] at hplaced
  split at hplaced
  · rename_i heq
    cases hplaced
    exact beq_iff_eq.mp heq ▸ hsupplied
  · obtain ⟨more, hmore⟩ := hmore
    exact hmore ▸ (h.placed hplaced).append

end Rules

theorem drafts_collectAll {add : Feature → Drafting Nat}
    (hadd : ∀ f ∈ features.values, ∀ d, Planned features scheme id d →
      Drafts (Planned features scheme id) (add f) d fun m sites =>
        Supplied features scheme id sites f.key m)
    (keys : List String) {d : Draft} (h : Planned features scheme id d) :
    Drafts (Planned features scheme id)
      (collectAll (fun key => withFeature features key add) keys) d fun needs sites =>
        List.Forall₂ (fun u key => ∃ p, features.get? key = some p ∧ Stands sites p.key u)
          needs keys := by
  induction keys generalizing d with
  | nil => exact drafts_pure h .nil
  | cons key rest ih =>
    have hhead : Drafts (Planned features scheme id) (withFeature features key add) d
        fun m sites => ∃ p, features.get? key = some p ∧ Stands sites p.key m := by
      unfold withFeature
      cases hp : features.get? key with
      | none => trivial
      | some p =>
        exact (hadd p (Dictionary.mem_values.mpr ⟨key, hp⟩) d h).mono
          (fun m d' ⟨hplanned, hmore, hm⟩ => ⟨hplanned, hmore, p, rfl, hm.stands⟩) fun _ h => h
    refine drafts_bind hhead fun m d' hplanned ⟨p, hp, hm⟩ _ =>
      drafts_bind (ih hplanned) fun needs d'' hplanned' hneeds hmore => ?_
    obtain ⟨more, hmore⟩ := hmore
    exact drafts_pure hplanned' (.cons ⟨p, hp, hmore ▸ hm.append⟩ hneeds)

theorem drafts_addFeature (depth : Nat) (hf : f ∈ features.values) {d : Draft}
    (h : Planned features scheme id d) :
    Drafts (Planned features scheme id) (addFeature features scheme id depth f) d fun m sites =>
      Supplied features scheme id sites f.key m := by
  induction depth generalizing f d with
  | zero => trivial
  | succ depth ih =>
    rw [addFeature]
    refine drafts_bind (drafts_placed h f.key) fun placed d₀ h₀ hplaced _ => ?_
    cases placed with
    | some m => exact drafts_pure h₀ (hplaced m rfl)
    | none =>
      refine drafts_bind (drafts_collectAll (fun f hf d h => ih hf h) f.needs h₀)
        fun needs d₁ h₁ hneeds _ => ?_
      have hworks : WorksOut features (sitesOf d₁.graph.nodes ++ [⟨f.key, f.component, needs⟩]) f
          (sitesOf d₁.graph.nodes).length :=
        ⟨needs, List.getElem?_concat_length,
          hneeds.imp fun u key ⟨p, hp, hu⟩ => ⟨p, hp, hu.append⟩⟩
      refine drafts_bind
        (.planned h₁ (adding_addNode ⟨h₁.toLaid, rfl⟩ ⟨f, hf, Or.inl hworks⟩)) ?_
      rintro m d₂ h₂ ⟨rfl, hsites⟩ -
      exact drafts_settle hf h₂ (hsites ▸ hworks)

theorem drafts_addAll (depth : Nat) (fs : List Feature) (hfs : ∀ f ∈ fs, f ∈ features.values)
    {d : Draft} (h : Planned features scheme id d) :
    Drafts (Planned features scheme id)
      (Procedure.each (fun f => do
        let _ ← addFeature features scheme id depth f
        pure ()) fs) d fun _ sites =>
          ∀ f ∈ fs, ∃ m, Supplied features scheme id sites f.key m := by
  induction fs generalizing d with
  | nil => exact drafts_pure h (by simp)
  | cons f rest ih =>
    have hone : Drafts (Planned features scheme id) (do
        let _ ← addFeature features scheme id depth f
        pure ()) d fun _ sites => ∃ m, Supplied features scheme id sites f.key m :=
      drafts_bind (drafts_addFeature depth (hfs f List.mem_cons_self) h) fun m _ h' hm _ =>
        drafts_pure h' ⟨m, hm⟩
    refine drafts_bind hone fun _ d' h' ⟨m, hm⟩ _ => ?_
    refine (ih (fun f hf => hfs f (List.mem_cons_of_mem _ hf)) h').mono
      (fun _ d'' ⟨h'', hmore, hrest⟩ => ⟨h'', hmore, fun k hk => ?_⟩) fun _ h => h
    rcases List.mem_cons.mp hk with rfl | hk
    · obtain ⟨more, hmore⟩ := hmore
      exact ⟨m, hmore ▸ hm.append⟩
    · exact hrest k hk

/-- A full graph is put together from chains of features, and each of its nodes is in one. Every
feature has its chain there, and nothing is cut off. -/
theorem fullGraph_eq_ok {schema : String} {g : Graph Workspace}
    (h : fullGraph schema features scheme id = .ok g) :
    Laid features scheme id g ∧
      ∀ f ∈ features.values, ∃ m, Supplied features scheme id (sitesOf g.nodes) f.key m := by
  have hempty : Planned features scheme id (Draft.empty (schema ++ ":" ++ id)) := by
    refine ⟨⟨.empty _, fun m => ⟨fun u => ?_, ?_⟩, fun m hm => absurd hm (Nat.not_lt_zero m)⟩,
      fun hplaced => by cases hplaced⟩
    all_goals simp [Draft.empty, Graph.empty, wiringOf]
  have hdraft := drafts_addAll (features.size + 1) features.values (fun _ hf => hf) hempty
  unfold Drafts Procedure.Ensures at hdraft
  unfold fullGraph at h
  dsimp only at h
  split at h
  · rename_i heq
    cases h
    rw [heq] at hdraft
    exact ⟨hdraft.1.toLaid, hdraft.2.2⟩
  · cases h

end Schema

end FeatureGraph
