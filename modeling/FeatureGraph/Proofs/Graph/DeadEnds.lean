-- What pruning takes. A node is a dead end if it and all that its chunks come
-- to are of features that nobody asked to store. Pruning takes one after the
-- other, each when all that it fed are gone, and it stops when there is none
-- that it could take: so it takes the dead ends and nothing else, whatever
-- the order of the features. A dead end that was left would have one among
-- its listeners, and these have higher numbers.
import FeatureGraph.Proofs.Graph.Bracketing
import FeatureGraph.Proofs.Graph.Pruning
import Mathlib.Logic.Relation

namespace FeatureGraph

open Relation

variable {W : Type}

/-! ## Graphs that were run -/

namespace Run

/-- A stage that leaves the nodes joined as they are, under the same keys. -/
def Settled {α : Type} (p : Stage W α) : Prop :=
  ∀ r, wiringOf (p r).1.nodes = wiringOf r.nodes ∧ (p r).1.keys = r.keys

section Rules

variable {α β ι : Type}

theorem settled_bind {p : Stage W α} {f : α → Stage W β} (hp : Settled p)
    (hf : ∀ a, Settled (f a)) : Settled (p >>= f) := by
  intro r
  have hfirst := hp r
  rw [Procedure.bind_apply]
  rcases heq : p r with ⟨r', _ | a⟩
  · rw [heq] at hfirst
    exact hfirst
  · rw [heq] at hfirst
    obtain ⟨hwiring, hkeys⟩ := hf a r'
    exact ⟨hwiring.trans hfirst.1, hkeys.trans hfirst.2⟩

theorem settled_each {f : ι → Stage W Unit} (hf : ∀ x, Settled (f x)) (xs : List ι) :
    Settled (Procedure.each f xs) := by
  induction xs with
  | nil => exact fun _ => ⟨rfl, rfl⟩
  | cons x rest ih => exact settled_bind (hf x) fun _ => ih

theorem settled_hook {id : Nat} {absent : α} {call : Node W → W → α × Node W × W}
    {act : Node W → α → Act} (hcall : ∀ n w, Alike n (call n w).2.1) :
    Settled (hook id absent call act) := by
  intro r
  cases hn : r.nodes[id]? with
  | none =>
    unfold hook
    rw [hn]
    exact ⟨rfl, rfl⟩
  | some n =>
    rw [hook_apply hn]
    exact ⟨wiringOf_set hn (hcall n r.world), keys_after hn (hcall n r.world).key⟩

theorem Steps.wiring {r r' : Run W} (h : Steps r r') : wiringOf r'.nodes = wiringOf r.nodes := by
  refine h.keep (I := fun r' => wiringOf r'.nodes = wiringOf r.nodes) rfl fun r₁ r₂ hstep hr₁ => ?_
  cases hstep with
  | call hook hn => exact (wiringOf_set hn (hook.alike _ _).1).trans hr₁
  | emit => exact hr₁
  | finalize _ provider listener => exact (wiringOf_finalize provider listener r₁).trans hr₁

theorem settled_of_goes {p : Stage W α} (h : Goes p) : Settled p :=
  fun r => ⟨(h r).wiring, (h r).keys⟩

end Rules

theorem settled_acquireAll (ids : List Nat) : Settled (acquireAll (W := W) ids) := by
  refine settled_each (fun id => settled_bind (settled_hook acquire_alike) fun result => ?_) ids
  exact settled_of_goes (goes_demand id result)

theorem settled_releaseAll (ids : List Nat) : Settled (releaseAll (W := W) ids) := by
  induction ids with
  | nil => exact settled_of_goes (goes_pure none)
  | cons id rest ih =>
    refine settled_bind (settled_hook fun n w => ⟨rfl, rfl, rfl, rfl, rfl⟩) fun result => ?_
    refine settled_bind (settled_of_goes (goes_look _ _ _)) fun key => ?_
    refine settled_bind ih fun others => ?_
    cases result with
    | ok => exact settled_of_goes (goes_pure others)
    | error e => exact settled_of_goes (goes_pure _)

/-- A whole run leaves the nodes joined as they are. -/
theorem settled_whole (inputs : List (Nat × Payload)) : Settled (whole (W := W) inputs) := by
  intro r
  have hrun := settled_bind (settled_acquireAll (W := W) (idsOf r.nodes fun n => !n.pruned))
    (fun _ => settled_of_goes (goes_drive (goes_receive r.nodes.length) inputs)) r
  unfold whole
  dsimp only
  generalize (acquireAll (idsOf r.nodes fun n => !n.pruned) >>= fun _ =>
    drive (receive r.nodes.length) inputs) r = driven at hrun ⊢
  obtain ⟨r₁, result⟩ := driven
  have hrelease := settled_releaseAll (idsOf r₁.nodes (·.acquired)) r₁
  dsimp only
  generalize releaseAll (idsOf r₁.nodes (·.acquired)) r₁ = closed at hrelease ⊢
  obtain ⟨r₂, released⟩ := closed
  have hboth : wiringOf r₂.nodes = wiringOf r.nodes ∧ r₂.keys = r.keys :=
    ⟨hrelease.1.trans hrun.1, hrelease.2.trans hrun.2⟩
  cases result with
  | error => exact hboth
  | ok => rcases released with _ | _ | _ <;> exact hboth

end Run

/-- The node of a number, once these are pruned and off its list. -/
def Node.without (gone : List Nat) (m : Nat) (n : Node W) : Node W :=
  { n with
    listeners := n.listeners.filter fun l => decide (l ∉ gone)
    pruned := n.pruned || decide (m ∈ gone) }

namespace Graph

variable {g g' : Graph W} {cs : List Candidate} {c : Candidate} {gone more : List Nat}
  {id m l : Nat}

/-- What the names and the joints of two graphs have in common. -/
theorem Lawful.congr (h : g.Lawful) (hwiring : wiringOf g'.nodes = wiringOf g.nodes)
    (hkeys : g'.nodes.map (·.key) = g.nodes.map (·.key)) : g'.Lawful :=
  ⟨hwiring ▸ h.wired, hkeys ▸ h.distinct⟩

theorem Lawful.process (h : g.Lawful) (inputs : Inputs) (world : W) :
    (g.process inputs world).1.Lawful := by
  unfold Graph.process
  by_cases hinputs : (g.roots.all fun root => inputs.contains root.1) = true
  · obtain ⟨hwiring, hkeys⟩ := Run.settled_whole (g.driven inputs) ⟨g.nodes, world, []⟩
    rw [run, if_pos hinputs]
    exact h.congr hwiring hkeys
  · rw [run_missing world hinputs]
    exact h

/-! ## Graphs without some of their nodes -/

/-- The graph with these nodes pruned, and off the lists of the others. -/
def less (g : Graph W) (gone : List Nat) : Graph W :=
  { g with nodes := g.nodes.mapIdx (Node.without gone) }

theorem less_getElem? (g : Graph W) (gone : List Nat) (m : Nat) :
    (g.less gone).nodes[m]? = g.nodes[m]?.map (Node.without gone m) := List.getElem?_mapIdx

theorem less_nil (g : Graph W) : g.less [] = g := by
  obtain ⟨name, nodes⟩ := g
  refine congrArg (Graph.mk name) (List.ext_getElem? fun m => ?_)
  rw [List.getElem?_mapIdx]
  cases nodes[m]? <;> simp [Node.without]

/-- Only which nodes are gone matters. -/
theorem less_congr {gone' : List Nat} (h : ∀ m, m ∈ gone ↔ m ∈ gone') :
    g.less gone = g.less gone' := by
  have hnode : (Node.without gone : Nat → Node W → Node W) = Node.without gone' := by
    funext m n
    simp only [Node.without, h]
  rw [less, less, hnode]

theorem keys_less (g : Graph W) (gone : List Nat) :
    (g.less gone).nodes.map (·.key) = g.nodes.map (·.key) := by
  refine List.ext_getElem? fun m => ?_
  rw [List.getElem?_map, List.getElem?_map, less_getElem?, Option.map_map]
  rfl

/-- The one node sends to the other. -/
def Feeds (g : Graph W) (u m : Nat) : Prop := m ∈ (wiringOf g.nodes).listeners u

theorem feeds_iff {n : Node W} (hn : g.nodes[m]? = some n) : g.Feeds m l ↔ l ∈ n.listeners := by
  simp [Feeds, wiringOf, hn]

/-- A key is of one node. -/
theorem Lawful.eq_of_key (h : g.Lawful) {n n' : Node W} (hn : g.nodes[m]? = some n)
    (hn' : g.nodes[id]? = some n') (hkey : n.key = n'.key) : m = id := by
  have hlt := (List.getElem?_eq_some_iff.mp hn).1
  exact (List.getElem?_inj (by simpa using hlt) h.distinct).mp (by simp [hn, hn', hkey])

theorem node_of_find? {key : String} (hfind : g.find? key = some id) :
    ∃ n, g.nodes[id]? = some n ∧ n.key = key := by
  obtain ⟨hlt, hkey, -⟩ := List.findIdx?_eq_some_iff_getElem.mp hfind
  exact ⟨_, List.getElem?_eq_getElem hlt, beq_iff_eq.mp hkey⟩

/-- Who is found under a key is the node of that key. -/
theorem Lawful.find? (h : g.Lawful) {key : String} :
    g.find? key = some id ↔ ∃ n, g.nodes[id]? = some n ∧ n.key = key := by
  refine ⟨node_of_find?, ?_⟩
  rintro ⟨n, hn, rfl⟩
  cases hfind : g.find? n.key with
  | none =>
    have hnot := List.findIdx?_eq_none_iff.mp hfind n (List.mem_of_getElem? hn)
    simp at hnot
  | some m =>
    obtain ⟨n', hn', hkey⟩ := node_of_find? hfind
    rw [h.eq_of_key hn' hn hkey]

/-! ## One node after the other -/

/-- When these nodes are gone, this node can go: it is of a candidate that is not stored, and all
that it feeds are gone. -/
structure Next (g : Graph W) (gone : List Nat) (c : Candidate) (id : Nat) : Prop where
  candidate : ∃ n, g.nodes[id]? = some n ∧ (n.key, false) = c ∧ n.pruned = false
  there : id ∉ gone
  unheard : ∀ l, g.Feeds id l → l ∈ gone

/-- Nodes that can go one after the other. -/
inductive Falls (g : Graph W) (cs : List Candidate) : List Nat → Prop
  | none : Falls g cs []
  | next {gone : List Nat} {c : Candidate} {id : Nat} :
      Falls g cs gone → c ∈ cs → g.Next gone c id → Falls g cs (gone ++ [id])

/-- One more node goes: it is taken off the lists of those that it needs, and no other list has
it. -/
theorem Lawful.less_concat (h : g.Lawful) (gone : List Nat) {n : Node W}
    (hn : g.nodes[id]? = some n) :
    ({ (g.less gone).unlink id n.needs with
      nodes := ((g.less gone).unlink id n.needs).nodes.modify id
        fun n => { n with pruned := true } } : Graph W) = g.less (gone ++ [id]) := by
  refine congrArg (Graph.mk g.name) (List.ext_getElem? fun m => ?_)
  refine Eq.trans ?_ (less_getElem? g (gone ++ [id]) m).symm
  rw [List.getElem?_modify, getElem?_unlink, less_getElem?]
  cases hk : g.nodes[m]? with
  | none => rfl
  | some k =>
    have hlist : (k.listeners.filter fun l => decide (l ∉ gone ++ [id])) =
        if m ∈ n.needs then (k.listeners.filter fun l => decide (l ∉ gone)).filter (· ≠ id)
          else k.listeners.filter fun l => decide (l ∉ gone) := by
      split
      · rw [List.filter_filter]
        refine List.filter_congr fun l _ => ?_
        simp [and_comm]
      · rename_i hm
        refine List.filter_congr fun l hl => ?_
        have hne : l ≠ id := by
          rintro rfl
          have hneeds := h.wired.mem_needs ((feeds_iff hk).mpr hl)
          exact hm (by simpa [wiringOf, hn] using hneeds)
        simp [hne]
    have hheard : (if m ∈ n.needs then (k.without gone m).heardBy
        ((k.without gone m).listeners.filter (· ≠ id)) else k.without gone m) =
        (k.without gone m).heardBy (k.listeners.filter fun l => decide (l ∉ gone ++ [id])) := by
      rw [hlist]
      split <;> rfl
    simp only [Option.map_some, Option.map_eq_map, hheard, Option.some.injEq]
    by_cases hm : id = m
    · simp [hm, Node.without, Node.heardBy]
    · simp [hm, Ne.symm hm, Node.without, Node.heardBy]

/-- A candidate is pruned exactly if it can go. -/
theorem Lawful.pruneOne_less (h : g.Lawful) (gone : List Nat) (c : Candidate) :
    ((g.less gone).pruneOne c = (g.less gone, []) ∧ ∀ id, ¬ g.Next gone c id) ∨
      ∃ id, g.Next gone c id ∧ (g.less gone).pruneOne c = (g.less (gone ++ [id]), [c.1]) := by
  have hfind : (g.less gone).find? c.1 = g.find? c.1 := by
    have hkeys : ∀ g : Graph W, g.find? c.1 = (g.nodes.map (·.key)).findIdx? (· == c.1) := by
      intro g
      rw [List.findIdx?_map]
      rfl
    rw [hkeys, hkeys, keys_less]
  unfold pruneOne
  rw [hfind]
  split
  · rename_i hnone
    refine Or.inl ⟨rfl, ?_⟩
    rintro id ⟨⟨n, hn, rfl, -⟩, -, -⟩
    rw [h.find?.mpr ⟨n, hn, rfl⟩] at hnone
    cases hnone
  · rename_i id hid
    obtain ⟨n, hn, hkey⟩ := h.find?.mp hid
    have hleaf : (n.without gone id).isLeaf = true ↔ ∀ l, g.Feeds id l → l ∈ gone := by
      simp [Node.isLeaf, Node.without, feeds_iff hn]
    rw [less_getElem?, hn, Option.map_some]
    dsimp only
    by_cases htest : (c.2 || (n.without gone id).pruned || !(n.without gone id).isLeaf) = true
    · rw [if_pos htest]
      refine Or.inl ⟨rfl, ?_⟩
      rintro id' ⟨⟨n', hn', rfl, hlive⟩, hthere, hunheard⟩
      obtain rfl : id = id' := Option.some.inj (hid.symm.trans (h.find?.mpr ⟨n', hn', rfl⟩))
      rw [hn] at hn'
      cases hn'
      rw [hleaf.mpr hunheard] at htest
      simp [Node.without, hlive, hthere] at htest
    · rw [if_neg htest]
      simp only [Bool.or_eq_true, Bool.not_eq_true', not_or, Bool.not_eq_true, Bool.not_eq_false,
        hleaf] at htest
      obtain ⟨⟨hstored, hpruned⟩, hunheard⟩ := htest
      simp only [Node.without, Bool.or_eq_false_iff, decide_eq_false_iff_not] at hpruned
      refine Or.inr ⟨id, ⟨⟨n, hn, Prod.ext hkey hstored.symm, hpruned.1⟩, hpruned.2, hunheard⟩, ?_⟩
      rw [← h.less_concat gone hn]
      rfl

namespace Falls

theorem nodup (h : g.Falls cs gone) : gone.Nodup := by
  induction h with
  | none => exact List.nodup_nil
  | next _ _ hnext ih =>
    refine List.nodup_append.mpr ⟨ih, List.nodup_singleton _, ?_⟩
    rintro m hm _ hid rfl
    exact hnext.there (List.mem_singleton.mp hid ▸ hm)

theorem candidate (h : g.Falls cs gone) (hm : m ∈ gone) :
    ∃ n, g.nodes[m]? = some n ∧ (n.key, false) ∈ cs ∧ n.pruned = false := by
  induction h with
  | none => cases hm
  | next _ hc hnext ih =>
    rcases List.mem_append.mp hm with hm | hm
    · exact ih hm
    · obtain ⟨n, hn, rfl, hlive⟩ := hnext.candidate
      exact ⟨n, List.mem_singleton.mp hm ▸ hn, hc, hlive⟩

/-- All that a node feeds goes before it. -/
theorem fed (h : g.Falls cs gone) (hm : m ∈ gone) (hl : g.Feeds m l) : l ∈ gone := by
  induction h with
  | none => cases hm
  | next _ _ hnext ih =>
    rcases List.mem_append.mp hm with hm | hm
    · exact List.mem_append_left _ (ih hm)
    · exact List.mem_append_left _ (hnext.unheard l (List.mem_singleton.mp hm ▸ hl))

theorem pairwise (h : g.Falls cs gone) :
    gone.Pairwise fun before after => ¬ g.Feeds before after := by
  induction h with
  | none => exact .nil
  | @next gone c id hfalls _ hnext ih =>
    refine List.pairwise_append.mpr ⟨ih, List.pairwise_singleton .., fun m hm id' hid hfeeds => ?_⟩
    exact hnext.there (List.mem_singleton.mp hid ▸ hfalls.fed hm hfeeds)

theorem length_le (h : g.Falls cs gone) : gone.length ≤ g.nodes.length := by
  have hsub : gone ⊆ List.range g.nodes.length := fun m hm => by
    obtain ⟨n, hn, -⟩ := h.candidate hm
    exact List.mem_range.mpr (List.getElem?_eq_some_iff.mp hn).1
  simpa using (h.nodup.subperm hsub).length_le

end Falls

theorem Falls.wiringOf_less (h : g.Falls cs gone) :
    wiringOf (g.less gone).nodes = { wiringOf g.nodes with
      listeners := fun u => ((wiringOf g.nodes).listeners u).filter fun l => decide (l ∉ gone)
      pruned := fun m => (wiringOf g.nodes).pruned m || decide (m ∈ gone) } := by
  simp only [wiringOf, less_getElem?, Wiring.mk.injEq]
  refine ⟨List.length_mapIdx, ?_, ?_, ?_⟩ <;> funext m
  · cases g.nodes[m]? <;> rfl
  · cases g.nodes[m]? <;> simp [Node.without]
  · cases hn : g.nodes[m]? with
    | none =>
      have hnot : m ∉ gone := fun hm => by
        obtain ⟨n, hn', -⟩ := h.candidate hm
        rw [hn] at hn'
        cases hn'
      simp [hnot]
    | some n => rfl

/-- What is not gone listens to whom it listened to. -/
theorem Falls.linked (h : g.Falls cs gone) (hm : m ∉ gone) (hlinked : (wiringOf g.nodes).Linked m) :
    (wiringOf (g.less gone).nodes).Linked m := by
  intro u
  rw [h.wiringOf_less, ← hlinked u]
  exact List.count_filter (decide_eq_true hm)

theorem Falls.cutOff (h : g.Falls cs gone) (hcut : (wiringOf g.nodes).CutOff m) :
    (wiringOf (g.less gone).nodes).CutOff m := by
  intro u hu
  rw [h.wiringOf_less] at hu
  exact hcut u (List.mem_filter.mp hu).1

/-- What is gone listens to none. -/
theorem Falls.cutOff_of_mem (h : g.Falls cs gone) (hm : m ∈ gone) :
    (wiringOf (g.less gone).nodes).CutOff m := by
  intro u hu
  rw [h.wiringOf_less] at hu
  exact of_decide_eq_true (List.mem_filter.mp hu).2 hm

/-- Pruning keeps the laws. -/
theorem Falls.lawful (h : g.Lawful) (hgone : g.Falls cs gone) : (g.less gone).Lawful := by
  have hnet := hgone.wiringOf_less
  refine ⟨⟨hnet ▸ h.wired.inRange, hnet ▸ h.wired.earlier, fun m => ?_, fun {u m} hm => ?_⟩,
    keys_less g gone ▸ h.distinct⟩
  · by_cases hm : m ∈ gone
    · exact Or.inr (hgone.cutOff_of_mem hm)
    · exact (h.wired.joined m).imp (hgone.linked hm) hgone.cutOff
  · rw [hnet] at hm ⊢
    obtain ⟨hm, hnot⟩ := List.mem_filter.mp hm
    simp [h.wired.live hm, of_decide_eq_true hnot]

/-! ## Dead ends -/

/-- A node that takes part in runs, and that leads, as itself, only to nodes of candidates that
are not stored. -/
structure DeadEnd (g : Graph W) (cs : List Candidate) (m : Nat) : Prop where
  live : ∃ n, g.nodes[m]? = some n ∧ n.pruned = false
  leads : ∀ l, ReflTransGen g.Feeds m l → ∃ n, g.nodes[l]? = some n ∧ (n.key, false) ∈ cs

theorem deadEnd_congr {cs' : List Candidate} (h : ∀ c, c ∈ cs' ↔ c ∈ cs) :
    g.DeadEnd cs' m ↔ g.DeadEnd cs m :=
  ⟨fun ⟨hlive, hleads⟩ => ⟨hlive, fun l hl => by simpa only [h] using hleads l hl⟩,
    fun ⟨hlive, hleads⟩ => ⟨hlive, fun l hl => by simpa only [h] using hleads l hl⟩⟩

theorem Falls.deadEnd (h : g.Falls cs gone) (hm : m ∈ gone) : g.DeadEnd cs m := by
  obtain ⟨n, hn, -, hlive⟩ := h.candidate hm
  refine ⟨⟨n, hn, hlive⟩, fun l hl => ?_⟩
  have hgone : l ∈ gone := by
    induction hl with
    | refl => exact hm
    | tail _ hfeeds ih => exact h.fed ih hfeeds
  obtain ⟨k, hk, hc, -⟩ := h.candidate hgone
  exact ⟨k, hk, hc⟩

theorem DeadEnd.fed (h : g.DeadEnd cs m) (hlawful : g.Lawful) (hl : g.Feeds m l) :
    g.DeadEnd cs l := by
  obtain ⟨n, hn, -⟩ := h.leads l (.single hl)
  have hlive := hlawful.wired.live hl
  refine ⟨⟨n, hn, by simpa [wiringOf, hn] using hlive⟩, fun k hk => h.leads k ?_⟩
  exact .head hl hk

/-- If no node can go, no dead end is left. The last one that was left would be one that can. -/
theorem DeadEnd.mem (h : g.DeadEnd cs m) (hlawful : g.Lawful)
    (hend : ∀ c ∈ cs, ∀ id, ¬ g.Next gone c id) : m ∈ gone := by
  induction hk : g.nodes.length - m using Nat.strongRecOn generalizing m with
  | ind k ih =>
    obtain ⟨n, hn, hlive⟩ := h.live
    obtain ⟨n', hn', hc⟩ := h.leads m .refl
    rw [hn] at hn'
    cases hn'
    by_contra hleft
    refine hend _ hc m ⟨⟨n, hn, rfl, hlive⟩, hleft, fun l hl => ?_⟩
    have hlt := hlawful.wired.lt hl
    have hm := (List.getElem?_eq_some_iff.mp hn).1
    exact ih (g.nodes.length - l) (by omega) (h.fed hlawful hl) rfl

/-! ## Rounds -/

/-- The loop over the candidates: rounds, until one prunes nothing. -/
inductive Sweeps (cs : List Candidate) : Graph W → Graph W → List String → Prop
  | done {g g' : Graph W} : g.pruneRound cs = (g', []) → Sweeps cs g g' []
  | again {g g₁ g' : Graph W} {key : String} {keys others : List String} :
      g.pruneRound cs = (g₁, key :: keys) → Sweeps cs g₁ g' others →
      Sweeps cs g g' (key :: keys ++ others)

/-- These are the keys of the nodes, in their order. -/
def Named (g : Graph W) (ids : List Nat) (keys : List String) : Prop :=
  keys.map some = ids.map fun m => g.nodes[m]?.map (·.key)

theorem Named.append {ids ids' : List Nat} {keys keys' : List String} (h : g.Named ids keys)
    (h' : g.Named ids' keys') : g.Named (ids ++ ids') (keys ++ keys') := by
  unfold Named at *
  rw [List.map_append, List.map_append, h, h']

theorem Named.perm {ids ids' : List Nat} {keys keys' : List String} (h : g.Named ids keys)
    (h' : g.Named ids' keys') (hperm : ids.Perm ids') : keys.Perm keys' := by
  refine (List.map_perm_map_iff (Option.some_injective _)).mp ?_
  rw [h, h']
  exact hperm.map _

/-- A round goes through the candidates, and prunes those that can go when it comes to them. -/
theorem Lawful.pruneRound_less (h : g.Lawful) {round : List Candidate} (hround : round ⊆ cs)
    (hgone : g.Falls cs gone) :
    ∃ more keys, (g.less gone).pruneRound round = (g.less (gone ++ more), keys) ∧
      g.Falls cs (gone ++ more) ∧ g.Named more keys ∧
      (more = [] → ∀ c ∈ round, ∀ id, ¬ g.Next gone c id) := by
  induction round generalizing gone with
  | nil => exact ⟨[], [], by simp [pruneRound], by simpa using hgone, rfl, by simp⟩
  | cons c rest ih =>
    obtain ⟨hc, hrest⟩ := List.cons_subset.mp hround
    rw [pruneRound]
    rcases h.pruneOne_less gone c with ⟨hone, hnone⟩ | ⟨id, hnext, hone⟩
    · obtain ⟨more, keys, hround, hfalls, hnamed, hend⟩ := ih hrest hgone
      rw [hone]
      dsimp only
      rw [hround]
      exact ⟨more, keys, rfl, hfalls, hnamed,
        fun hmore => List.forall_mem_cons.mpr ⟨hnone, hend hmore⟩⟩
    · obtain ⟨more, keys, hround, hfalls, hnamed, -⟩ := ih hrest (hgone.next hc hnext)
      have hfirst : g.Named [id] [c.1] := by
        obtain ⟨n, hn, rfl, -⟩ := hnext.candidate
        simp [Named, hn]
      rw [hone]
      dsimp only
      rw [hround]
      rw [List.append_assoc] at hfalls ⊢
      exact ⟨id :: more, c.1 :: keys, rfl, hfalls, hfirst.append hnamed,
        fun hmore => by cases hmore⟩

/-- The nodes that go have different keys. -/
theorem Falls.nodup_keys (h : g.Falls cs gone) (hlawful : g.Lawful) {keys : List String}
    (hnamed : g.Named gone keys) : keys.Nodup := by
  refine List.Nodup.of_map some ?_
  rw [hnamed]
  refine h.nodup.map_on fun m hm m' _ heq => ?_
  obtain ⟨n, hn, -⟩ := h.candidate hm
  obtain ⟨n', hn', hkey⟩ : ∃ n', g.nodes[m']? = some n' ∧ n'.key = n.key :=
    Option.map_eq_some_iff.mp (heq.symm.trans (by rw [hn]; rfl))
  exact hlawful.eq_of_key hn hn' hkey.symm

/-- Every round but the last takes a node, so the rounds come to an end. -/
theorem Lawful.pruneRounds_less (h : g.Lawful) {fuel : Nat}
    (hfuel : g.nodes.length < gone.length + fuel) (hgone : g.Falls cs gone) :
    ∃ more keys, pruneRounds cs fuel (g.less gone) = (g.less (gone ++ more), keys) ∧
      g.Falls cs (gone ++ more) ∧ g.Named more keys ∧
      Sweeps cs (g.less gone) (g.less (gone ++ more)) keys ∧
      (g.less (gone ++ more)).pruneRound cs = (g.less (gone ++ more), []) ∧
      ∀ c ∈ cs, ∀ id, ¬ g.Next (gone ++ more) c id := by
  induction fuel generalizing gone with
  | zero =>
    have := hgone.length_le
    omega
  | succ fuel ih =>
    obtain ⟨more, keys, hround, hfalls, hnamed, hend⟩ := h.pruneRound_less (fun _ h => h) hgone
    rw [pruneRounds, hround]
    cases more with
    | nil =>
      obtain rfl : keys = [] := by simpa [Named] using hnamed
      rw [List.append_nil] at hround
      refine ⟨[], [], rfl, hfalls, rfl, ?_, ?_, ?_⟩ <;> rw [List.append_nil]
      · exact .done hround
      · exact hround
      · exact hend rfl
    | cons id more =>
      obtain ⟨key, keys, rfl⟩ : ∃ key rest, keys = key :: rest := by
        cases keys with
        | nil => simp [Named] at hnamed
        | cons key rest => exact ⟨key, rest, rfl⟩
      obtain ⟨others, names, hrounds, hfalls', hnamed', hsweeps, hlast, hend'⟩ :=
        ih (by simp at hfuel ⊢; omega) hfalls
      rw [List.append_assoc] at hrounds hfalls' hsweeps hlast hend'
      refine ⟨(id :: more) ++ others, (key :: keys) ++ names, ?_, hfalls', hnamed.append hnamed',
        ?_, hlast, hend'⟩
      · dsimp only
        rw [hrounds]
      · exact .again hround hsweeps

theorem Lawful.prune_eq (h : g.Lawful) (cs : List Candidate) :
    ∃ gone, (g.prune cs).1 = g.less gone ∧ g.Falls cs gone ∧ g.Named gone (g.prune cs).2 ∧
      Sweeps cs g (g.prune cs).1 (g.prune cs).2 ∧
      (g.prune cs).1.pruneRound cs = ((g.prune cs).1, []) ∧
      ∀ m, m ∈ gone ↔ g.DeadEnd cs m := by
  have hnone : g.Falls cs [] := .none
  obtain ⟨gone, keys, hprune, hfalls, hnamed, hsweeps, hlast, hend⟩ :=
    h.pruneRounds_less (show g.nodes.length < 0 + (g.nodes.length + 1) by omega) hnone
  rw [less_nil, List.nil_append] at *
  unfold prune
  rw [hprune]
  exact ⟨gone, rfl, hfalls, hnamed, hsweeps, hlast,
    fun m => ⟨hfalls.deadEnd, fun hm => hm.mem h hend⟩⟩

/-- The laws hold of every graph, however it was built and run. -/
theorem Handled.lawful (h : g.Handled) : g.Lawful := by
  induction h with
  | empty name => exact (Built.empty name).ready.lawful
  | add _ hadd ih => exact ih.add hadd
  | disconnect _ hcut ih =>
    unfold Graph.disconnect at hcut
    split at hcut
    · cases hcut
    · rename_i n hn
      cases hcut
      exact (ih.unlink hn).1
  | prune cs _ ih =>
    obtain ⟨gone, heq, hfalls, -⟩ := ih.prune_eq cs
    rw [heq]
    exact hfalls.lawful ih
  | process inputs world _ ih => exact ih.process inputs world

/-- Pruning takes the dead ends and nothing else, whatever the order of the candidates. It comes to
an end, names each node that it takes once, and after all that the node fed. What it takes is off
all lists, all else is as it was, and there is nothing left for it to take. -/
theorem prune_takes_dead_ends (h : g.Handled) (cs : List Candidate) :
    ∃ gone : List Nat,
      Sweeps cs g (g.prune cs).1 (g.prune cs).2 ∧
      (∀ m, m ∈ gone ↔ g.DeadEnd cs m) ∧
      (∀ cs', cs'.Perm cs → (g.prune cs').1 = (g.prune cs).1 ∧
        (g.prune cs').2.Perm (g.prune cs).2) ∧
      (g.Named gone (g.prune cs).2 ∧ (g.prune cs).2.Nodup ∧
        gone.Pairwise fun before after => ¬ g.Feeds before after) ∧
      (g.prune cs).1 = g.less gone ∧
      (g.prune cs).1.prune cs = ((g.prune cs).1, []) := by
  have hlawful := h.lawful
  obtain ⟨gone, heq, hfalls, hnamed, hsweeps, hlast, hgone⟩ := hlawful.prune_eq cs
  refine ⟨gone, hsweeps, hgone, fun cs' hperm => ?_,
    ⟨hnamed, hfalls.nodup_keys hlawful hnamed, hfalls.pairwise⟩, heq, ?_⟩
  · obtain ⟨gone', heq', hfalls', hnamed', -, -, hgone'⟩ := hlawful.prune_eq cs'
    have hsame : ∀ m, m ∈ gone' ↔ m ∈ gone := fun m => by
      rw [hgone', hgone]
      exact deadEnd_congr fun c => hperm.mem_iff
    refine ⟨?_, hnamed'.perm hnamed ?_⟩
    · rw [heq', heq, less_congr hsame]
    · exact (List.perm_ext_iff_of_nodup hfalls'.nodup hfalls.nodup).mpr hsame
  · rw [prune, pruneRounds, hlast]

/-- A root with a branch of two nodes that nobody stores, and a node that is stored. -/
def branching : Graph (Nat × Nat) :=
  ⟨"branching", [{ Node.new "a" (counter fun w => w) [] with listeners := [1, 3] },
    { Node.new "b" (counter fun w => w) [0] with listeners := [2] },
    Node.new "c" (counter fun w => w) [1],
    Node.new "d" (counter fun w => w) [0]]⟩

theorem branching_handled : branching.Handled :=
  .add (.add (.add (.add (.empty "branching")
    (show (Graph.empty "branching").add "a" _ [] = .ok (0, _) from rfl))
    (show Graph.add _ "b" _ [0] = .ok (1, _) from rfl))
    (show Graph.add _ "c" _ [1] = .ok (2, _) from rfl))
    (show Graph.add _ "d" _ [0] = .ok (3, branching) from rfl)

/-- The branch goes from its end, in whatever order it is asked for. -/
theorem branch_is_taken :
    branching.Handled ∧
      (branching.prune [("b", false), ("c", false), ("d", true)]).2 = ["c", "b"] ∧
      (branching.prune [("c", false), ("d", true), ("b", false)]).1 =
        (branching.prune [("b", false), ("c", false), ("d", true)]).1 := by
  obtain ⟨_, -, -, horder, -⟩ :=
    prune_takes_dead_ends branching_handled [("b", false), ("c", false), ("d", true)]
  exact ⟨branching_handled, rfl, (horder _ (by decide)).1⟩

end Graph

end FeatureGraph
