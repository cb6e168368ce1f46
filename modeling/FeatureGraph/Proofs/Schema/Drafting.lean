-- Work on a draft, and how it fails. A graph takes in every node whose key is
-- new and whose needs are there, so what can go wrong is known of each step.
import FeatureGraph.Proofs.Schema.Accepted

namespace FeatureGraph

variable {W : Type}

/-! ## Adding a node -/

theorem Graph.add_cases {g : Graph W} (key : String) (c : Component W) {needs : List Nat}
    (hneeds : ∀ p ∈ needs, p < g.nodes.length) :
    (∃ g', g.add key c needs = .ok (g.nodes.length, g')) ∨
      (key ∈ g.nodes.map (·.key) ∧ g.add key c needs = .error (.duplicateNode key)) := by
  unfold Graph.add
  split
  · rename_i hsome
    rw [find?, List.findIdx?_isSome, List.any_eq_true] at hsome
    obtain ⟨n, hn, hkey⟩ := hsome
    exact Or.inr ⟨List.mem_map.mpr ⟨n, hn, beq_iff_eq.mp hkey⟩, rfl⟩
  · have hnone : needs.find? (g.nodes.length ≤ ·) = none := by
      simpa using hneeds
    rw [hnone]
    exact Or.inl ⟨_, rfl⟩

/-- The keys of sites. -/
def keysOf (sites : List (Site W)) : List String := sites.map (·.key)

theorem keysOf_sitesOf (nodes : List (Node W)) : keysOf (sitesOf nodes) = nodes.map (·.key) := by
  rw [keysOf, sitesOf, List.map_map]
  rfl

theorem keysOf_append (sites more : List (Site W)) :
    keysOf (sites ++ more) = keysOf sites ++ keysOf more := List.map_append

namespace Schema

open Procedure

/-! ## Keys of nodes -/

theorem encoderKey_inj {k k' : String} : encoderKey k = encoderKey k' ↔ k = k' := by
  rw [encoderKey, encoderKey, ← String.toList_inj]
  simp [String.toList_inj]

theorem writerKey_inj {k k' : String} : writerKey k = writerKey k' ↔ k = k' := by
  rw [writerKey, writerKey, ← String.toList_inj]
  simp [String.toList_inj]

/-- An added end makes another key. -/
theorem append_ne_self {k e : String} (he : e ≠ "") : k ++ e ≠ k := by
  intro h
  rw [← String.toList_inj] at h
  simp [he] at h

theorem encoderKey_ne_self (k : String) : encoderKey k ≠ k := append_ne_self (by decide)

theorem writerKey_ne_self (k : String) : writerKey k ≠ k := append_ne_self (by decide)

/-- Keys that end differently are different. -/
theorem encoderKey_ne_writerKey (k k' : String) : encoderKey k ≠ writerKey k' := by
  intro h
  have hends := congrArg (fun s : String => s.toList.reverse[2]?) h
  simp [encoderKey, writerKey] at hends

theorem encoderKey_ne_captureKey (k k' : String) : encoderKey k ≠ captureKey k' := by
  intro h
  have hends := congrArg (fun s : String => s.toList.reverse[2]?) h
  simp [encoderKey, captureKey] at hends

/-! ## Drafts that take in a node -/

variable {features : Dictionary Feature} {d d' d'' : Draft} {l more : List (Site Workspace)}
  {key : String} {m : Nat}

theorem stands_iff : Stands l key m ↔ (keysOf l)[m]? = some key := by
  rw [Stands, keysOf, List.getElem?_map, Option.map_eq_some_iff]

theorem Stands.lt (h : Stands l key m) : m < l.length := by
  obtain ⟨site, hsite, -⟩ := h
  exact (List.getElem?_eq_some_iff.mp hsite).1

theorem Stands.mem (h : Stands l key m) : key ∈ keysOf l :=
  List.mem_of_getElem? (stands_iff.mp h)

theorem exists_stands (h : key ∈ keysOf l) : ∃ m, Stands l key m := by
  obtain ⟨m, hm⟩ := List.getElem?_of_mem h
  exact ⟨m, stands_iff.mpr hm⟩

theorem Stands.mono (h : Stands l key m) (hmore : l <+: more) : Stands more key m := by
  obtain ⟨rest, rfl⟩ := hmore
  exact h.append

theorem stands_concat {site : Site Workspace} :
    Stands (l ++ [site]) key m ↔ key = site.key ∧ m = l.length ∨ Stands l key m := by
  constructor
  · rintro ⟨other, hother, rfl⟩
    rcases Nat.lt_or_ge m l.length with hlt | hge
    · rw [List.getElem?_append_left hlt] at hother
      exact Or.inr ⟨other, hother, rfl⟩
    · rw [List.getElem?_append_right hge, List.getElem?_singleton] at hother
      split at hother
      · cases hother
        exact Or.inl ⟨rfl, by omega⟩
      · cases hother
  · rintro (⟨rfl, rfl⟩ | h)
    · exact ⟨site, List.getElem?_concat_length, rfl⟩
    · exact h.append

/-- The sites of the graph of a draft. -/
def Draft.sites (d : Draft) : List (Site Workspace) := sitesOf d.graph.nodes

/-- The graph of a draft is built without cuts. -/
structure Draft.Whole (d : Draft) : Prop where
  built : d.graph.Built
  intact : (wiringOf d.graph.nodes).Intact

theorem Draft.whole_empty (name : String) : (Draft.empty name).Whole := by
  refine ⟨.empty _, fun m => ⟨fun u => ?_, ?_⟩⟩ <;> simp [Draft.empty, Graph.empty, wiringOf]

theorem Draft.Whole.nodup (h : d.Whole) : (keysOf d.sites).Nodup := by
  rw [Draft.sites, keysOf_sitesOf]
  exact h.built.ready.distinct

/-- A node was added to a draft. -/
structure Draft.Added (d : Draft) (site : Site Workspace) (d' : Draft) : Prop where
  fresh : site.key ∉ keysOf d.sites
  whole : d'.Whole
  sites : d'.sites = d.sites ++ [site]
  placed : d'.placed = d.placed
  sources : d'.sources = d.sources

/-- A node whose needs are there is added, unless there is one of its key. -/
theorem yields_addNode {c : Component Workspace} {needs : List Nat} (h : d.Whole)
    (hneeds : ∀ p ∈ needs, p < d.sites.length) :
    (Draft.addNode key c needs).Yields d
      (fun m d' => m = d.sites.length ∧ d.Added ⟨key, c, needs⟩ d')
      fun e => key ∈ keysOf d.sites ∧ e = .graph (.duplicateNode key) := by
  unfold Yields Draft.addNode
  have hlength : d.sites.length = d.graph.nodes.length := by
    rw [Draft.sites, sitesOf, List.length_map]
  rcases Graph.add_cases (g := d.graph) key c (hlength ▸ hneeds) with
    ⟨graph, hadd⟩ | ⟨hkey, hadd⟩
  · rw [hadd]
    obtain ⟨-, hearlier, hfresh, hgraph⟩ := Graph.add_eq_ok hadd
    refine ⟨hlength.symm, ?_, ⟨h.built.add hadd, ?_⟩, (Graph.sitesOf_add hadd).1, rfl, rfl⟩
    · rwa [Draft.sites, keysOf_sitesOf]
    · subst hgraph
      exact h.intact.append h.built.ready.wired _ _ hearlier rfl
  · rw [hadd]
    exact ⟨by rwa [Draft.sites, keysOf_sitesOf], rfl⟩

/-- Two nodes are added, of which the second needs the first. -/
theorem yields_chain {k₁ k₂ : String} {c₁ c₂ : Component Workspace} (hne : k₂ ≠ k₁) (h : d.Whole)
    (hm : m < d.sites.length) :
    (do
      let first ← Draft.addNode k₁ c₁ [m]
      let _ ← Draft.addNode k₂ c₂ [first]
      pure () : Drafting Unit).Yields d
      (fun _ d' => d'.Whole ∧ d'.sites = d.sites ++ [⟨k₁, c₁, [m]⟩, ⟨k₂, c₂, [d.sites.length]⟩] ∧
        d'.placed = d.placed ∧ d'.sources = d.sources)
      fun e => ∃ key ∈ [k₁, k₂], key ∈ keysOf d.sites ∧ e = .graph (.duplicateNode key) := by
  refine yields_bind ((yields_addNode h (by simpa using hm)).mono ?_ ?_)
  · rintro _ d₁ ⟨rfl, hfirst⟩
    refine yields_bind ((yields_addNode hfirst.whole (by simp [hfirst.sites])).mono ?_ ?_)
    · rintro _ d₂ ⟨-, hsecond⟩
      refine yields_pure ⟨hsecond.whole, ?_, hsecond.placed.trans hfirst.placed,
        hsecond.sources.trans hfirst.sources⟩
      rw [hsecond.sites, hfirst.sites, List.append_assoc]
      rfl
    · rintro e ⟨hkey, rfl⟩
      rw [hfirst.sites, keysOf_append, List.mem_append] at hkey
      exact ⟨k₂, by simp, hkey.resolve_right fun heq => hne (List.mem_singleton.mp heq), rfl⟩
  · rintro e ⟨hkey, rfl⟩
    exact ⟨k₁, by simp, hkey, rfl⟩

/-- A feature that has a node already is found among those that were met. -/
theorem yields_placed {good : Option Nat → Draft → Prop} {wrong : Failure → Prop}
    (hfound : ∀ m, (key, m) ∈ d.placed → good (some m) d)
    (hnew : key ∉ d.placed.map Prod.fst → good none d) :
    (Draft.placed? key).Yields d good wrong := by
  refine yields_view ?_
  cases hlookup : d.placed.lookup key with
  | some m =>
    obtain ⟨before, after, heq, -⟩ := List.lookup_eq_some_iff.mp hlookup
    exact hfound m (heq ▸ List.mem_append_right _ List.mem_cons_self)
  | none =>
    refine hnew fun hkey => ?_
    obtain ⟨e, he, rfl⟩ := List.mem_map.mp hkey
    simpa using List.lookup_eq_none_iff.mp hlookup e he

theorem yields_place {good : Unit → Draft → Prop} {wrong : Failure → Prop}
    (h : good () { d with placed := (key, m) :: d.placed }) :
    (Draft.place key m).Yields d good wrong := yields_change h

/-! ## Drafts that grow -/

/-- The features that were met stay, and those that were met now pass a test. -/
structure Draft.Meets (p : String → Prop) (d d' : Draft) : Prop where
  sites : d.sites <+: d'.sites
  placed : d.placed ⊆ d'.placed
  fresh : ∀ key ∈ d'.placed.map Prod.fst, key ∈ d.placed.map Prod.fst ∨ p key

variable {p q : String → Prop}

theorem Draft.Meets.refl (p : String → Prop) (d : Draft) : d.Meets p d :=
  ⟨List.prefix_rfl, fun _ h => h, fun _ h => Or.inl h⟩

theorem Draft.Meets.trans (h : d.Meets p d') (h' : d'.Meets p d'') : d.Meets p d'' :=
  ⟨h.sites.trans h'.sites, fun _ he => h'.placed (h.placed he),
    fun key hkey => (h'.fresh key hkey).elim (h.fresh key) Or.inr⟩

theorem Draft.Meets.mono (h : d.Meets p d') (hp : ∀ key, p key → q key) : d.Meets q d' :=
  ⟨h.sites, h.placed, fun key hkey => (h.fresh key hkey).imp_right (hp key)⟩

theorem Draft.meets_place {key : String} {m : Nat} (hsites : d.sites <+: d'.sites)
    (hplaced : d'.placed = (key, m) :: d.placed) : d.Meets (· = key) d' := by
  refine ⟨hsites, ?_, ?_⟩
  · rw [hplaced]
    exact List.subset_cons_self ..
  · rw [hplaced]
    exact List.forall_mem_cons.mpr ⟨Or.inr rfl, fun _ hkey => Or.inl hkey⟩

/-- The features of a list of keys are added one after the other, if each of them can be. -/
theorem yields_collectAll (features : Dictionary Feature) {I : Draft → Prop}
    (add : Feature → Drafting Nat) (keys : List String) (wrong : Failure → Prop)
    (hadd : ∀ key ∈ keys, ∀ d, I d → ∃ f, features.get? key = some f ∧
      (add f).Yields d (fun m d' => I d' ∧ d.sites <+: d'.sites ∧ Stands d'.sites f.key m) wrong)
    (h : I d) :
    (collectAll (fun key => withFeature features key add) keys).Yields d
      (fun needs d' => I d' ∧ d.sites <+: d'.sites ∧ List.Forall₂
        (fun u key => ∃ f, features.get? key = some f ∧ Stands d'.sites f.key u) needs keys)
      wrong := by
  induction keys generalizing d with
  | nil => exact yields_pure ⟨h, List.prefix_rfl, .nil⟩
  | cons key rest ih =>
    obtain ⟨hkey, hrest⟩ := List.forall_mem_cons.mp hadd
    obtain ⟨f, hf, hyields⟩ := hkey d h
    have hhead : withFeature features key add = add f := by rw [withFeature, hf]
    rw [collectAll, hhead]
    refine yields_bind (hyields.mono (fun m d' ⟨h', hmore, hm⟩ => ?_) fun _ h => h)
    refine yields_bind ((ih hrest h').mono (fun needs d'' ⟨h'', hmore', hneeds⟩ => ?_) fun _ h => h)
    exact yields_pure ⟨h'', hmore.trans hmore', .cons ⟨f, hf, hm.mono hmore'⟩ hneeds⟩

/-- What a feature needs has a lower rank, so the feature itself is not met while that is
collected. -/
theorem yields_needs (haccepted : Accepted features) {rank : String → Nat}
    (hrank : Ranking features rank) {f : Feature} (hf : f ∈ features.values) {I : Draft → Prop}
    (add : Feature → Drafting Nat) (wrong : Failure → Prop)
    (hstands : ∀ {d key m}, I d → (key, m) ∈ d.placed → Stands d.sites key m)
    (hadd : ∀ p ∈ features.values, p.key ∈ f.needs → ∀ d, I d → (add p).Yields d
      (fun m d' => I d' ∧ d.Meets (rank · ≤ rank p.key) d' ∧ (p.key, m) ∈ d'.placed) wrong)
    (h : I d) (hnew : f.key ∉ d.placed.map Prod.fst) :
    (collectAll (fun key => withFeature features key add) f.needs).Yields d
      (fun needs d' => I d' ∧ d.Meets (rank · < rank f.key) d' ∧
        f.key ∉ d'.placed.map Prod.fst ∧ List.Forall₂
          (fun u key => ∃ p, features.get? key = some p ∧ Stands d'.sites p.key u) needs f.needs)
      wrong := by
  have hcollect := yields_collectAll features
    (I := fun d' => I d' ∧ d.Meets (rank · < rank f.key) d') add f.needs wrong ?_ ⟨h, .refl _ _⟩
  · refine hcollect.mono ?_ fun _ h => h
    rintro needs d₁ ⟨⟨h₁, hmeets⟩, -, hneeds⟩
    refine ⟨h₁, hmeets, fun hkey => ?_, hneeds⟩
    exact (hmeets.fresh _ hkey).elim hnew (Nat.lt_irrefl _)
  · rintro key hkey d₁ ⟨h₁, hmeets⟩
    obtain ⟨p, hp⟩ := haccepted.declared hf hkey
    obtain rfl : p.key = key := haccepted.keyed hp
    have hlt := hrank.lt hf hkey
    refine ⟨p, hp, (hadd p (Dictionary.mem_values.mpr ⟨_, hp⟩) hkey d₁ h₁).mono ?_ fun _ h => h⟩
    rintro m d₂ ⟨h₂, hmeets₂, hplaced⟩
    exact ⟨⟨h₂, hmeets.trans (hmeets₂.mono fun k hk => Nat.lt_of_le_of_lt hk hlt)⟩,
      hmeets₂.sites, hstands h₂ hplaced⟩

end Schema

end FeatureGraph
