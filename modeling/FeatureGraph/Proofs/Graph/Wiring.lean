-- The laws of graphs that are being built. Whatever is added, cut off and
-- pruned, and in whatever order: a node needs only earlier nodes, it listens
-- to all that it needs or to none, as often as it needs them, and a pruned
-- node listens to none. Until a graph is run its nodes are as they were
-- added.
import FeatureGraph.Graph.Basic

namespace FeatureGraph

universe u

variable {W : Type}

/-! ## The wiring of nodes -/

/-- How nodes are joined, by their numbers. -/
structure Wiring where
  /-- How many nodes there are. -/
  size : Nat
  needs : Nat → List Nat
  listeners : Nat → List Nat
  pruned : Nat → Bool

/-- The wiring of a list of nodes. A number without a node is joined to nothing. -/
def wiringOf (nodes : List (Node W)) : Wiring where
  size := nodes.length
  needs id := (nodes[id]?.map (·.needs)).getD []
  listeners id := (nodes[id]?.map (·.listeners)).getD []
  pruned id := (nodes[id]?.map (·.pruned)).getD false

namespace Wiring

/-- A node that needs nothing. -/
def Root (net : Wiring) (id : Nat) : Prop := net.needs id = []

/-- A node that listens to all it needs, once for each time it needs it. -/
def Linked (net : Wiring) (id : Nat) : Prop :=
  ∀ u, (net.listeners u).count id = (net.needs id).count u

/-- A node that listens to none. -/
def CutOff (net : Wiring) (id : Nat) : Prop := ∀ u, id ∉ net.listeners u

/-- What holds of the wiring of every graph. -/
structure Wired (net : Wiring) : Prop where
  inRange : ∀ {u m}, u ∈ net.needs m → m < net.size
  earlier : ∀ {u m}, u ∈ net.needs m → u < m
  joined : ∀ m, net.Linked m ∨ net.CutOff m
  live : ∀ {u m}, m ∈ net.listeners u → net.pruned m = false

namespace Wired

variable {net : Wiring} {u v m : Nat}

theorem linked (h : net.Wired) (hm : m ∈ net.listeners u) : net.Linked m :=
  (h.joined m).resolve_right fun hcut => hcut u hm

theorem mem_needs (h : net.Wired) (hm : m ∈ net.listeners u) : u ∈ net.needs m := by
  have hcount := h.linked hm u
  exact List.count_pos_iff.mp (hcount ▸ List.count_pos_iff.mpr hm)

theorem lt (h : net.Wired) (hm : m ∈ net.listeners u) : u < m := h.earlier (h.mem_needs hm)

/-- Who listens to one node that it needs listens to all of them. -/
theorem mem_listeners (h : net.Wired) (hm : m ∈ net.listeners u) (hv : v ∈ net.needs m) :
    m ∈ net.listeners v := by
  have hcount := h.linked hm v
  exact List.count_pos_iff.mp (hcount ▸ List.count_pos_iff.mpr hv)

theorem not_root (h : net.Wired) (hm : m ∈ net.listeners u) : ¬ net.Root m := fun hroot => by
  have := h.mem_needs hm
  rw [hroot] at this
  exact List.not_mem_nil this

end Wired

end Wiring

/-! ## Changes of the wiring -/

def Wiring.relist (net : Wiring) (f : Nat → List Nat → List Nat) : Wiring :=
  { net with listeners := fun u => f u (net.listeners u) }

section Changes

variable {nodes : List (Node W)} {p u id : Nat} {needs : List Nat}

theorem wiringOf_append (n : Node W) :
    wiringOf (nodes ++ [n]) = ⟨nodes.length + 1,
      fun u => if u = nodes.length then n.needs else (wiringOf nodes).needs u,
      fun u => if u = nodes.length then n.listeners else (wiringOf nodes).listeners u,
      fun u => if u = nodes.length then n.pruned else (wiringOf nodes).pruned u⟩ := by
  simp only [wiringOf, List.length_append, List.length_singleton, List.getElem?_append,
    List.getElem?_singleton, Wiring.mk.injEq]
  refine ⟨trivial, ?_, ?_, ?_⟩ <;> funext u <;> grind

/-- A new node stands on the lists of all it needs, as often as it needs them. -/
theorem wiringOf_listen (h : ∀ p ∈ needs, p < nodes.length) :
    wiringOf (needs.foldl (Graph.listen id) nodes) =
      (wiringOf nodes).relist fun u l => l ++ List.replicate (needs.count u) id := by
  induction needs generalizing nodes with
  | nil => simp [Wiring.relist]
  | cons p rest ih =>
    have hp : p < nodes.length := h p List.mem_cons_self
    have hone : wiringOf (Graph.listen id nodes p) =
        (wiringOf nodes).relist fun u l => if u = p then l ++ [id] else l := by
      simp only [wiringOf, Graph.listen, List.length_modify, List.getElem?_modify, Wiring.relist,
        Wiring.mk.injEq]
      refine ⟨trivial, ?_, ?_, ?_⟩ <;> funext u <;> grind
    rw [List.foldl_cons, ih, hone]
    · simp only [Wiring.relist, Wiring.mk.injEq, true_and, and_true]
      funext u
      by_cases hu : u = p
      · subst hu
        simp [List.replicate_succ]
      · simp [hu, Ne.symm hu]
    · intro q hq
      simpa [Graph.listen] using h q (List.mem_cons_of_mem _ hq)

/-- A node that is cut off goes from the lists of all it needs. -/
theorem wiringOf_unlink (g : Graph W) :
    wiringOf (g.unlink id needs).nodes =
      (wiringOf g.nodes).relist fun u l => if u ∈ needs then l.filter (· ≠ id) else l := by
  obtain ⟨name, nodes⟩ := g
  simp only [Graph.unlink]
  induction needs generalizing nodes with
  | nil => simp [Wiring.relist]
  | cons p rest ih =>
    have hone : wiringOf (nodes.modify p fun n =>
        { n with listeners := n.listeners.filter (· ≠ id) }) =
        (wiringOf nodes).relist fun u l => if u = p then l.filter (· ≠ id) else l := by
      simp only [wiringOf, List.length_modify, List.getElem?_modify, Wiring.relist, Wiring.mk.injEq]
      refine ⟨trivial, ?_, ?_, ?_⟩ <;> funext u <;> grind
    rw [List.foldl_cons, ih, hone]
    simp only [Wiring.relist, Wiring.mk.injEq, true_and, and_true]
    funext u
    by_cases hu : u = p
    · subst hu
      by_cases hrest : u ∈ rest <;> simp [hrest, List.filter_filter]
    · simp [hu]

theorem wiringOf_prune :
    wiringOf (nodes.modify id fun n => { n with pruned := true }) = { wiringOf nodes with
      pruned := fun u => (u = id ∧ id < nodes.length) || (wiringOf nodes).pruned u } := by
  simp only [wiringOf, List.length_modify, List.getElem?_modify, Wiring.mk.injEq]
  refine ⟨trivial, ?_, ?_, ?_⟩ <;> funext u <;> grind

theorem length_foldl_listen : (needs.foldl (Graph.listen id) nodes).length = nodes.length := by
  induction needs generalizing nodes with
  | nil => rfl
  | cons p rest ih => rw [List.foldl_cons, ih, Graph.listen, List.length_modify]

/-! ## The changes keep the laws -/

/-- A new node is on the lists of all it needs, as often as it needs them. The lists are else as
they were. -/
theorem Wiring.Wired.count_append (h : (wiringOf nodes).Wired) (key : String) (c : Component W)
    (hneeds : ∀ p ∈ needs, p < nodes.length) (hfew : nodes.length = id) (u m : Nat) :
    ((wiringOf (needs.foldl (Graph.listen id) nodes ++ [Node.new key c needs])).listeners u).count m
      = if m = id then needs.count u else ((wiringOf nodes).listeners u).count m := by
  have hnew : ((wiringOf nodes).listeners u).count id = 0 := by
    refine List.count_eq_zero.mpr fun hu => ?_
    have hmem := h.mem_needs hu
    simp [wiringOf, ← hfew] at hmem
  have hnone : u = id → (wiringOf nodes).listeners u = [] ∧ needs.count u = 0 := fun hu => by
    refine ⟨by simp [wiringOf, hu, ← hfew], List.count_eq_zero.mpr fun hmem => ?_⟩
    have := hneeds u hmem
    omega
  rw [wiringOf_append, wiringOf_listen hneeds, length_foldl_listen, hfew]
  by_cases hu : u = id
  · simp [Node.new, hu, hu ▸ hnone hu]
  · by_cases hm : m = id
    · simp [Wiring.relist, hu, hm, hnew]
    · simp [Wiring.relist, hu, hm, List.count_replicate, Ne.symm hm]

theorem Wiring.Wired.append (h : (wiringOf nodes).Wired) (key : String) (c : Component W)
    (hneeds : ∀ p ∈ needs, p < nodes.length) (hfew : nodes.length = id) :
    (wiringOf (needs.foldl (Graph.listen id) nodes ++ [Node.new key c needs])).Wired := by
  have hcount := h.count_append key c hneeds hfew
  rw [wiringOf_append, wiringOf_listen hneeds, length_foldl_listen, hfew] at hcount ⊢
  refine ⟨?_, ?_, ?_, ?_⟩
  · intro u m hu
    simp only [relist, Node.new] at hu
    split at hu
    · exact Nat.lt_succ_of_le (by omega)
    · exact Nat.lt_succ_of_lt (hfew ▸ h.inRange hu)
  · intro u m hu
    simp only [relist, Node.new] at hu
    split at hu
    · have := hneeds u hu
      omega
    · exact h.earlier hu
  · intro m
    by_cases hm : m = id
    · left
      intro u
      rw [hcount, if_pos hm]
      simp [Node.new, hm]
    · refine (h.joined m).imp (fun hlinked u => ?_) fun hcut u => ?_
      · rw [hcount, if_neg hm, hlinked u]
        simp [relist, hm]
      · refine List.count_eq_zero.mp ?_
        rw [hcount, if_neg hm, List.count_eq_zero.mpr (hcut u)]
  · intro u m hm
    simp only [relist, Node.new] at hm ⊢
    split at hm
    · simp at hm
    · split
      · rfl
      · rcases List.mem_append.mp hm with hm | hm
        · exact h.live hm
        · have := List.eq_of_mem_replicate hm
          contradiction

/-- Every node listens to all that it needs, and none is pruned. -/
def Wiring.Intact (net : Wiring) : Prop := ∀ m, net.Linked m ∧ net.pruned m = false

theorem Wiring.Intact.append (h : (wiringOf nodes).Intact) (hw : (wiringOf nodes).Wired)
    (key : String) (c : Component W) (hneeds : ∀ p ∈ needs, p < nodes.length)
    (hfew : nodes.length = id) :
    (wiringOf (needs.foldl (Graph.listen id) nodes ++ [Node.new key c needs])).Intact := by
  have hcount := hw.count_append key c hneeds hfew
  rw [wiringOf_append, wiringOf_listen hneeds, length_foldl_listen, hfew] at hcount ⊢
  intro m
  obtain ⟨hlinked, hlive⟩ := h m
  by_cases hm : m = id
  · refine ⟨fun u => ?_, by simp [Node.new, hm]⟩
    rw [hcount, if_pos hm]
    simp [Node.new, hm]
  · refine ⟨fun u => ?_, by simpa [relist, hm] using hlive⟩
    rw [hcount, if_neg hm, hlinked u]
    simp [relist, hm]

theorem Wiring.Linked.unlink {net : Wiring} {m : Nat} (h : net.Linked m) (hm : m ≠ id) :
    (net.relist fun u l => if u ∈ needs then l.filter (· ≠ id) else l).Linked m := by
  intro u
  simp only [relist]
  split
  · rw [List.count_filter (by simpa using hm)]
    exact h u
  · exact h u

theorem Wiring.CutOff.unlink {net : Wiring} {m : Nat} (h : net.CutOff m) :
    (net.relist fun u l => if u ∈ needs then l.filter (· ≠ id) else l).CutOff m := by
  intro u hu
  simp only [relist] at hu
  split at hu
  · exact h u (List.mem_filter.mp hu).1
  · exact h u hu

theorem Wiring.Wired.unlink {net : Wiring} (h : net.Wired) (id : Nat) :
    (net.relist fun u l => if u ∈ net.needs id then l.filter (· ≠ id) else l).Wired ∧
      (net.relist fun u l => if u ∈ net.needs id then l.filter (· ≠ id) else l).CutOff id := by
  have hcut :
      (net.relist fun u l => if u ∈ net.needs id then l.filter (· ≠ id) else l).CutOff id := by
    intro u hu
    simp only [relist] at hu
    split at hu
    · simp at hu
    · rename_i hmem
      exact hmem (h.mem_needs hu)
  refine ⟨⟨h.inRange, h.earlier, fun m => ?_, fun {u m} hm => ?_⟩, hcut⟩
  · by_cases hm : m = id
    · exact Or.inr (hm ▸ hcut)
    · exact (h.joined m).imp (·.unlink hm) (·.unlink)
  · simp only [relist] at hm ⊢
    split at hm
    · exact h.live (List.mem_filter.mp hm).1
    · exact h.live hm

theorem Wiring.Wired.prune {net : Wiring} (h : net.Wired) {p : Nat → Bool}
    (hcut : ∀ id, p id = true → net.CutOff id) :
    ({ net with pruned := fun u => p u || net.pruned u } : Wiring).Wired := by
  refine ⟨h.inRange, h.earlier, h.joined, ?_⟩
  intro u m hm
  simp only [Bool.or_eq_false_iff]
  refine ⟨?_, h.live hm⟩
  cases hp : p m with
  | false => rfl
  | true => exact absurd hm (hcut m hp u)

end Changes

/-! ## Graphs that are being built -/

/-- A node that no run has touched. -/
structure Node.Fresh (n : Node W) : Prop where
  state : n.state = n.component.start
  cache : n.cache = Cache.empty
  finalized : n.finalized = []
  enqueued : n.enqueued = []
  completed : n.completed = false
  acquired : n.acquired = false

namespace Graph

/-- The graphs that adding, cutting off and pruning make. -/
inductive Built : Graph W → Prop
  | empty (name : String) : Built (Graph.empty name)
  | add {g g' : Graph W} {key : String} {c : Component W} {needs : List Nat} {id : Nat} :
      Built g → g.add key c needs = .ok (id, g') → Built g'
  | disconnect {g g' : Graph W} {id : Nat} : Built g → g.disconnect id = .ok g' → Built g'
  | prune {g : Graph W} (candidates : List Candidate) : Built g → Built (g.prune candidates).1

theorem add_eq_ok {g g' : Graph W} {key : String} {c : Component W} {needs : List Nat} {id : Nat}
    (h : g.add key c needs = .ok (id, g')) :
    id = g.nodes.length ∧ (∀ p ∈ needs, p < id) ∧ key ∉ g.nodes.map (·.key) ∧
      g' = { g with nodes := needs.foldl (listen id) g.nodes ++ [Node.new key c needs] } := by
  unfold add at h
  split at h
  · cases h
  · rename_i hunknown
    split at h
    · cases h
    · rename_i hnone
      cases h
      refine ⟨rfl, fun p hp => ?_, fun hkey => hunknown ?_, rfl⟩
      · simpa using List.find?_eq_none.mp hnone p hp
      · obtain ⟨n, hn, rfl⟩ := List.mem_map.mp hkey
        simp only [find?, List.findIdx?_isSome, List.any_eq_true]
        exact ⟨n, hn, beq_self_eq_true _⟩

/-- A change that keeps something of every node keeps the list of it. -/
theorem map_modify {α : Type u} {p : Node W → α} {nodes : List (Node W)} {i : Nat}
    {f : Node W → Node W} (hf : ∀ n, p (f n) = p n) :
    (nodes.modify i f).map p = nodes.map p := by
  refine List.ext_getElem? fun j => ?_
  rw [List.getElem?_map, List.getElem?_map, List.getElem?_modify]
  cases nodes[j]? with
  | none => rfl
  | some n =>
    simp only [Option.map_eq_map, Option.map_some, Option.some.injEq]
    split
    · exact hf n
    · rfl

theorem map_foldl_modify {α : Type u} {p : Node W → α} {nodes : List (Node W)} {needs : List Nat}
    {f : Node W → Node W} (hf : ∀ n, p (f n) = p n) :
    (needs.foldl (fun nodes u => nodes.modify u f) nodes).map p = nodes.map p := by
  induction needs generalizing nodes with
  | nil => rfl
  | cons u rest ih => rw [List.foldl_cons, ih, map_modify hf]

theorem keys_listen (id : Nat) (needs : List Nat) (nodes : List (Node W)) :
    (needs.foldl (listen id) nodes).map (·.key) = nodes.map (·.key) :=
  map_foldl_modify fun _ => rfl

/-- What holds of a graph before it is run. -/
structure Ready (g : Graph W) : Prop where
  wired : (wiringOf g.nodes).Wired
  fresh : ∀ n ∈ g.nodes, n.Fresh
  distinct : (g.nodes.map (·.key)).Nodup

/-- What a change of a node keeps holds of all nodes after it. -/
theorem forall_modify {nodes : List (Node W)} {i : Nat} {f : Node W → Node W} {P : Node W → Prop}
    (h : ∀ n ∈ nodes, P n) (hf : ∀ n : Node W, P n → P (f n)) : ∀ n ∈ nodes.modify i f, P n := by
  intro n hn
  obtain ⟨j, hj⟩ := List.getElem?_of_mem hn
  rw [List.getElem?_modify] at hj
  obtain ⟨m, hm, rfl⟩ := Option.map_eq_some_iff.mp hj
  have hm' := h m (List.mem_of_getElem? hm)
  split
  · exact hf m hm'
  · exact hm'

theorem forall_foldl_modify {nodes : List (Node W)} {needs : List Nat} {f : Node W → Node W}
    {P : Node W → Prop} (h : ∀ n ∈ nodes, P n) (hf : ∀ n : Node W, P n → P (f n)) :
    ∀ n ∈ needs.foldl (fun nodes p => nodes.modify p f) nodes, P n := by
  induction needs generalizing nodes with
  | nil => exact h
  | cons p rest ih => exact ih (forall_modify h hf)

/-- What holds of every graph, whether it was run or not. -/
structure Lawful (g : Graph W) : Prop where
  wired : (wiringOf g.nodes).Wired
  distinct : (g.nodes.map (·.key)).Nodup

theorem Ready.lawful {g : Graph W} (h : g.Ready) : g.Lawful := ⟨h.wired, h.distinct⟩

theorem Lawful.add {g g' : Graph W} (h : g.Lawful) {key : String} {c : Component W}
    {needs : List Nat} {id : Nat} (hadd : g.add key c needs = .ok (id, g')) : g'.Lawful := by
  obtain ⟨rfl, hneeds, hkey, rfl⟩ := add_eq_ok hadd
  refine ⟨h.wired.append _ _ hneeds rfl, ?_⟩
  rw [List.map_append, keys_listen]
  refine List.nodup_append.mpr ⟨h.distinct, by simp, ?_⟩
  rintro k hk _ hnew rfl
  rw [List.mem_singleton.mp hnew] at hk
  exact hkey hk

theorem Lawful.unlink {g : Graph W} (h : g.Lawful) {id : Nat} {n : Node W}
    (hn : g.nodes[id]? = some n) :
    (g.unlink id n.needs).Lawful ∧ (wiringOf (g.unlink id n.needs).nodes).CutOff id := by
  have hneeds : n.needs = (wiringOf g.nodes).needs id := by simp [wiringOf, hn]
  have hkeys : (g.unlink id n.needs).nodes.map (·.key) = g.nodes.map (·.key) :=
    map_foldl_modify fun _ => rfl
  obtain ⟨hwired, hcut⟩ := h.wired.unlink id
  rw [← hneeds, ← wiringOf_unlink] at hwired hcut
  exact ⟨⟨hwired, hkeys ▸ h.distinct⟩, hcut⟩

theorem Ready.unlink {g : Graph W} (h : g.Ready) {id : Nat} {n : Node W}
    (hn : g.nodes[id]? = some n) :
    (g.unlink id n.needs).Ready ∧ (wiringOf (g.unlink id n.needs).nodes).CutOff id := by
  obtain ⟨hlawful, hcut⟩ := h.lawful.unlink hn
  refine ⟨⟨hlawful.wired, ?_, hlawful.distinct⟩, hcut⟩
  exact forall_foldl_modify h.fresh fun n hn => ⟨hn.1, hn.2, hn.3, hn.4, hn.5, hn.6⟩

theorem Ready.pruneOne {g : Graph W} (h : g.Ready) (c : Candidate) : (g.pruneOne c).1.Ready := by
  unfold Graph.pruneOne
  split
  · exact h
  · split
    · exact h
    · rename_i id _ _ n hn
      split
      · exact h
      · obtain ⟨hready, hcut⟩ := h.unlink hn
        refine ⟨?_, forall_modify hready.fresh fun n hn => ⟨hn.1, hn.2, hn.3, hn.4, hn.5, hn.6⟩, ?_⟩
        · rw [wiringOf_prune]
          refine hready.wired.prune fun u hu => ?_
          simp only [decide_eq_true_eq] at hu
          exact hu.1 ▸ hcut
        · have hkeys : ((g.unlink id n.needs).nodes.modify id fun n =>
              { n with pruned := true }).map (·.key) = (g.unlink id n.needs).nodes.map (·.key) :=
            map_modify fun _ => rfl
          exact hkeys ▸ hready.distinct

theorem Ready.pruneRound {g : Graph W} (h : g.Ready) (cs : List Candidate) :
    (g.pruneRound cs).1.Ready := by
  induction cs generalizing g with
  | nil => exact h
  | cons c rest ih => exact ih (h.pruneOne c)

theorem Ready.pruneRounds {g : Graph W} (h : g.Ready) (cs : List Candidate) (fuel : Nat) :
    (pruneRounds cs fuel g).1.Ready := by
  induction fuel generalizing g with
  | zero => exact h
  | succ fuel ih =>
    have hround := h.pruneRound cs
    unfold Graph.pruneRounds
    split
    · rename_i heq
      rw [heq] at hround
      exact hround
    · rename_i heq
      rw [heq] at hround
      exact ih hround

/-- Every graph is ready for a run, however it was built. -/
theorem Built.ready {g : Graph W} (h : g.Built) : g.Ready := by
  induction h with
  | empty name =>
    refine ⟨⟨?_, ?_, ?_, ?_⟩, ?_, ?_⟩ <;> simp [Graph.empty, wiringOf, Wiring.CutOff]
  | add _ hadd ih =>
    have hlawful := ih.lawful.add hadd
    obtain ⟨rfl, -, -, rfl⟩ := add_eq_ok hadd
    refine ⟨hlawful.wired, fun n hn => ?_, hlawful.distinct⟩
    rcases List.mem_append.mp hn with hn | hn
    · exact forall_foldl_modify (f := fun n => { n with listeners := n.listeners ++ [_] })
        ih.fresh (fun n hn => ⟨hn.1, hn.2, hn.3, hn.4, hn.5, hn.6⟩) n hn
    · rw [List.mem_singleton.mp hn]
      exact ⟨rfl, rfl, rfl, rfl, rfl, rfl⟩
  | disconnect _ hcut ih =>
    unfold Graph.disconnect at hcut
    split at hcut
    · cases hcut
    · rename_i n hn
      cases hcut
      exact (ih.unlink hn).1
  | prune cs _ ih => exact ih.pruneRounds cs _

end Graph

end FeatureGraph
