-- What a full graph consists of. Each feature has its nodes in it once, as it
-- was declared, and there are no others: however the features share what they
-- need, and with whichever of them the draft begins. The keys say that no node
-- is there twice, so it is enough to say of each what it may be.
import FeatureGraph.Component.Concatenate
import FeatureGraph.Proofs.Run.Course
import FeatureGraph.Proofs.Schema.Circles

namespace FeatureGraph.Schema

section

variable {features : Dictionary Feature} {scheme : KeyScheme} {schema id : String}
  {g : Graph Workspace} {d : Draft} {f : Feature} {node : String → Nat} {m : Nat}

/-- The nodes that a feature is given, where `node` says which node a key is of. -/
def sitesFor (scheme : KeyScheme) (id : String) (node : String → Nat) (f : Feature) :
    List (Site Workspace) :=
  ⟨f.key, f.component, f.needs.map node⟩ ::
    if f.isStored then
      [⟨encoderKey f.key, Component.encoding f.encoder, [node f.key]⟩,
        ⟨writerKey f.key, Component.storing (destination scheme id f), [node (encoderKey f.key)]⟩]
    else []

theorem keysOf_sitesFor (f : Feature) :
    keysOf (sitesFor scheme id node f) = f.key :: storingKeys f := by
  unfold keysOf sitesFor storingKeys
  split <;> rfl

/-! ## The keys of a full graph -/

theorem Keyed.keys_eq (h : Keyed features) : features.keys = features.values.map (·.key) := by
  unfold Dictionary.keys Dictionary.values
  rw [List.map_map]
  refine List.map_congr_left fun e he => ?_
  exact (h (Dictionary.get?_eq_some.mpr he)).symm

/-- The features that a draft met are those that its graph has the nodes of, each once. -/
theorem Filled.nodup_placed (h : Filled features d) : (d.placed.reverse.map Prod.fst).Nodup := by
  have hnodup := h.nodup
  rw [h.keys, List.nodup_flatMap] at hnodup
  refine List.pairwise_map.mpr (hnodup.2.imp fun {e e'} hapart heq => ?_)
  exact hapart List.mem_cons_self (heq ▸ List.mem_cons_self)

/-- Once all features are met, the keys of the nodes are those that the features ask for. -/
theorem Filled.keys_perm (h : Filled features d) (hkeyed : Keyed features)
    (hall : ∀ f ∈ features.values, f.key ∈ d.placed.map Prod.fst) :
    (keysOf d.sites).Perm (features.values.flatMap fun f => f.key :: storingKeys f) := by
  have hmet : (d.placed.reverse.map Prod.fst).Perm features.keys := by
    refine (List.perm_ext_iff_of_nodup h.nodup_placed ?_).mpr fun key => ?_
    · refine List.pairwise_map.mpr (features.sorted.imp fun {a b} hlt heq => ?_)
      exact String.lt_irrefl _ (heq ▸ hlt)
    · rw [List.map_reverse, List.mem_reverse]
      refine ⟨h.declared key, fun hkey => ?_⟩
      rw [hkeyed.keys_eq] at hkey
      obtain ⟨f, hf, rfl⟩ := List.mem_map.mp hkey
      exact hall f hf
  have hnodes : features.keys.flatMap (nodeKeys features) =
      features.values.flatMap fun f => f.key :: storingKeys f := by
    rw [hkeyed.keys_eq, List.flatMap_map]
    exact List.flatMap_congr fun f hf => nodeKeys_key hkeyed hf
  rw [h.keys, ← hnodes, ← List.flatMap_map Prod.fst]
  exact hmet.flatMap_right _

/-! ## Its nodes -/

/-- A node of a full graph is one that a feature is given. -/
theorem Serves.mem_sitesFor (h : Serves features scheme id (sitesOf g.nodes) m)
    (hkeyed : Keyed features) (hnode : ∀ {key m}, Stands (sitesOf g.nodes) key m → node key = m)
    {site : Site Workspace} (hsite : (sitesOf g.nodes)[m]? = some site) :
    site ∈ features.values.flatMap (sitesFor scheme id node) := by
  obtain ⟨f, hf, hserves⟩ := h
  refine List.mem_flatMap.mpr ⟨f, hf, ?_⟩
  rcases hserves with ⟨needs, hworks, hneeds⟩ | ⟨hstored, ⟨u, hu, hencodes⟩ | ⟨u, hu, hwrites⟩⟩
  · have heq : needs = f.needs.map node := by
      refine List.forall₂_eq_eq_eq ▸ List.forall₂_map_right_iff.mpr (hneeds.imp ?_)
      rintro u key ⟨p, hp, hu⟩
      exact (hkeyed hp ▸ hnode hu).symm
    rw [hworks] at hsite
    cases hsite
    exact heq ▸ List.mem_cons_self
  · rw [hencodes] at hsite
    cases hsite
    rw [← hnode hu.stands]
    simp [sitesFor, hstored]
  · rw [hwrites] at hsite
    cases hsite
    obtain ⟨k, -, hencodes⟩ := hu
    rw [← hnode ⟨_, hencodes, rfl⟩]
    simp [sitesFor, hstored]

/-- The nodes of a full graph are those that the features are given. -/
theorem sites_perm (haccepted : Accepted features)
    (h : fullGraph schema features scheme id = .ok g)
    (hnode : ∀ {key m}, Stands (sitesOf g.nodes) key m → node key = m) :
    (sitesOf g.nodes).Perm (features.values.flatMap (sitesFor scheme id node)) := by
  obtain ⟨hlaid, -⟩ := fullGraph_eq_ok h
  have hkeys : (keysOf (sitesOf g.nodes)).Perm
      (keysOf (features.values.flatMap (sitesFor scheme id node))) := by
    rcases fullGraph_drafts scheme id haccepted schema with ⟨d, hd, hfilled, hall⟩ | ⟨_, -, herror⟩
    · rw [h] at hd
      cases hd
      have hsame : keysOf (features.values.flatMap (sitesFor scheme id node)) =
          features.values.flatMap fun f => f.key :: storingKeys f := by
        rw [keysOf, List.map_flatMap]
        exact List.flatMap_congr fun f _ => keysOf_sitesFor f
      exact hsame ▸ hfilled.keys_perm haccepted.keyed hall
    · rw [h] at herror
      cases herror
  -- no key is there twice, so no node is, and there are as many as are asked for
  have hnodup : (sitesOf g.nodes).Nodup := by
    refine List.Nodup.of_map Site.key ?_
    rw [← keysOf, keysOf_sitesOf]
    exact hlaid.built.ready.distinct
  have hsub : sitesOf g.nodes ⊆ features.values.flatMap (sitesFor scheme id node) := by
    intro site hsite
    obtain ⟨m, hm⟩ := List.getElem?_of_mem hsite
    have hlt := (List.getElem?_eq_some_iff.mp hm).1
    exact (hlaid.serves m hlt).mem_sitesFor haccepted.keyed hnode hm
  refine (hnodup.subperm hsub).perm_of_length_le (Nat.le_of_eq ?_)
  have hlength := hkeys.length_eq
  rw [keysOf, keysOf, List.length_map, List.length_map] at hlength
  exact hlength.symm

/-! ## Its roots -/

/-- Roots are listed in the order of their keys. -/
theorem sorted_roots (g : Graph Workspace) : (g.roots.map Prod.fst).Pairwise (· < ·) := by
  refine List.pairwise_map.mpr ?_
  exact g.index.sorted.filter _

theorem sorted_rootKeys (hkeyed : Keyed features) :
    ((features.values.filter (·.isRoot)).map (·.key)).Pairwise (· < ·) := by
  have hsorted : (features.values.map (·.key)).Pairwise (· < ·) := by
    rw [← hkeyed.keys_eq]
    exact List.pairwise_map.mpr features.sorted
  exact hsorted.sublist (List.filter_sublist.map _)

/-- A node that needs nothing works a feature out that needs nothing. -/
theorem mem_sitesFor_of_needs_nil {site : Site Workspace} (h : site ∈ sitesFor scheme id node f)
    (hneeds : site.needs = []) : site.key = f.key ∧ f.needs = [] := by
  rcases List.mem_cons.mp h with rfl | h
  · exact ⟨rfl, List.map_eq_nil_iff.mp hneeds⟩
  · split at h
    · simp only [List.mem_cons, List.not_mem_nil, or_false] at h
      rcases h with rfl | rfl <;> cases hneeds
    · cases h

theorem roots_eq (hkeyed : Keyed features) (hready : g.Ready)
    (h : (sitesOf g.nodes).Perm (features.values.flatMap (sitesFor scheme id node))) :
    g.roots.map Prod.fst = (features.values.filter (·.isRoot)).map (·.key) := by
  refine eq_of_ordered (fun _ _ => String.lt_asymm) (sorted_roots g) (sorted_rootKeys hkeyed) ?_
  intro key
  simp only [List.mem_map, List.mem_filter, Prod.exists, exists_and_right, exists_eq_right,
    Graph.mem_roots hready.distinct, Feature.isRoot, Node.isRoot, List.isEmpty_iff]
  constructor
  · rintro ⟨m, n, hn, rfl, hneeds⟩
    have hsite : n.site ∈ sitesOf g.nodes := List.mem_map_of_mem (List.mem_of_getElem? hn)
    obtain ⟨f, hf, hmem⟩ := List.mem_flatMap.mp (h.subset hsite)
    obtain ⟨hkey, hnil⟩ := mem_sitesFor_of_needs_nil hmem hneeds
    exact ⟨f, ⟨hf, hnil⟩, hkey.symm⟩
  · rintro ⟨f, ⟨hf, hneeds⟩, rfl⟩
    have hsite := h.symm.subset (List.mem_flatMap.mpr ⟨f, hf, List.mem_cons_self⟩)
    obtain ⟨n, hn, heq⟩ := List.mem_map.mp hsite
    obtain ⟨m, hm⟩ := List.getElem?_of_mem hn
    have hnil : n.needs = f.needs.map node := congrArg Site.needs heq
    refine ⟨m, n, hm, congrArg Site.key heq, ?_⟩
    rw [hnil, hneeds, List.map_nil]

/-! ## The whole of it -/

/-- A full graph is what the features declare. Each has one node under its key, which needs the
nodes of what the feature needs, in this order and as often. One that is stored has a node besides
that encodes it, and one that writes this under its storage key. There are no other nodes, none
needs a later one, and the roots are those of the features that need nothing. -/
theorem full_graph_is_as_declared (hkeyed : Keyed features) (hclosed : Closed features)
    (hacyclic : Acyclic features) (h : fullGraph schema features scheme id = .ok g) :
    ∃ node : String → Nat,
      (∀ (m : Nat) (n : Node Workspace), g.nodes[m]? = some n → node n.key = m) ∧
      (sitesOf g.nodes).Perm (features.values.flatMap (sitesFor scheme id node)) ∧
      (∀ (m : Nat) (n : Node Workspace), g.nodes[m]? = some n → ∀ u ∈ n.needs, u < m) ∧
      g.roots.map Prod.fst = (features.values.filter (·.isRoot)).map (·.key) := by
  have haccepted : Accepted features := accepted_iff.mpr ⟨hkeyed, hclosed, hacyclic⟩
  have hready := (fullGraph_eq_ok h).1.built.ready
  have hnode : ∀ {key m}, Stands (sitesOf g.nodes) key m →
      (keysOf (sitesOf g.nodes)).idxOf key = m := by
    intro key m hm
    obtain ⟨hlt, hkey⟩ := List.getElem?_eq_some_iff.mp (stands_iff.mp hm)
    rw [← hkey]
    refine List.Nodup.idxOf_getElem ?_ m hlt
    rw [keysOf_sitesOf]
    exact hready.distinct
  have hperm := sites_perm haccepted h hnode
  refine ⟨_, fun m n hn => hnode ⟨n.site, sitesOf_getElem?.mpr ⟨n, hn, rfl⟩, rfl⟩, hperm,
    fun m n hn u hu => ?_, roots_eq hkeyed hready hperm⟩
  exact hready.wired.earlier (by simpa [wiringOf, hn] using hu)

end

/-- Three features, of which two need the third, and one of them needs it twice. -/
def shared : List Feature :=
  [{ Feature.new "b" Component.concatenate with needs := ["c", "c"], isStored := true },
    Feature.new "c" (Component.byteStream 1),
    { Feature.new "a" Component.concatenate with needs := ["c", "b"] }]

def sharing : Schema :=
  ⟨"s", .delimited ":", .input "id", Dictionary.ofList (shared.map fun f => (f.key, f))⟩

/-- What is shared has one node, and a feature is found before it is added for itself. -/
theorem shared_is_built_once :
    (Keyed sharing.features ∧ Closed sharing.features ∧ Acyclic sharing.features) ∧
      ∃ g, fullGraph "s" sharing.features sharing.scheme "e" = .ok g ∧
        g.nodes.map (·.key) = ["c", "b", "b/encoder", "b/writer", "a"] ∧
        g.nodes.map (·.needs) = [[], [0, 0], [1], [2], [0, 1]] ∧
        g.roots.map Prod.fst = ["c"] := by
  have hbuild : build "s" (.delimited ":") (.input "id") shared = .ok sharing := rfl
  obtain ⟨hkeyed, hclosed, hacyclic⟩ := accepted_iff.mp (accepted_build hbuild)
  obtain ⟨g, hg⟩ : ∃ g, fullGraph "s" sharing.features sharing.scheme "e" = .ok g := ⟨_, rfl⟩
  obtain ⟨-, -, -, -, hroots⟩ := full_graph_is_as_declared hkeyed hclosed hacyclic hg
  refine ⟨⟨hkeyed, hclosed, hacyclic⟩, g, hg, ?_, ?_, hroots⟩ <;> cases hg <;> decide +kernel

end FeatureGraph.Schema
