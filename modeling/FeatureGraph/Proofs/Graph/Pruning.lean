-- What pruning leaves of a graph, and of its runs. Pruning takes away nodes
-- that send only to nodes it takes away too, and it takes them off the lists
-- of those who send to them; it changes nothing else. So the run of a graph
-- that was pruned is the run that it would have had, seen at what survives.
import FeatureGraph.Proofs.Run.Shadow
import FeatureGraph.Proofs.Graph.Edges

namespace FeatureGraph

variable {W : Type}

namespace Graph

/-! ## What pruning leaves -/

/-- Whether a node takes part in runs. -/
def keeps (g : Graph W) (m : Nat) : Bool := !(wiringOf g.nodes).pruned m

theorem keeps_eq {g : Graph W} {m : Nat} {n : Node W} (hn : g.nodes[m]? = some n) :
    g.keeps m = !n.pruned := by simp [keeps, wiringOf, hn]

/-- The graph `g'` is `g` with more nodes pruned, and these nodes send only to such nodes. -/
structure Trims (g g' : Graph W) : Prop where
  length : g'.nodes.length = g.nodes.length
  node : ∀ {m : Nat} {n : Node W}, g.nodes[m]? = some n → ∃ pruned,
    g'.nodes[m]? = some { n.heardBy (n.listeners.filter g'.keeps) with pruned } ∧
      (n.pruned = true → pruned = true)
  closed : ∀ {m l : Nat} {n : Node W}, g.nodes[m]? = some n → n.pruned = false → g'.keeps m = false →
    l ∈ n.listeners → g'.keeps l = false

theorem Trims.keeps_of_keeps {g g' : Graph W} (h : g.Trims g') {m : Nat} (hm : g'.keeps m = true) :
    g.keeps m = true := by
  cases hn : g.nodes[m]? with
  | none => simp [keeps, wiringOf, hn]
  | some n =>
    obtain ⟨pruned, hn', hpruned⟩ := h.node hn
    rw [keeps_eq hn'] at hm
    rw [keeps_eq hn]
    cases hp : n.pruned with
    | false => rfl
    | true => simp [hpruned hp] at hm

theorem Trims.trans {g g' g'' : Graph W} (h : g.Trims g') (h' : g'.Trims g'') : g.Trims g'' := by
  have hboth : ∀ l, (g''.keeps l && g'.keeps l) = g''.keeps l := fun l => by
    cases hl : g''.keeps l with
    | false => rfl
    | true => simp [h'.keeps_of_keeps hl]
  refine ⟨h'.length.trans h.length, fun {m n} hn => ?_, fun {m l n} hn hlive hm hl => ?_⟩
  · obtain ⟨pruned', hn', hpruned'⟩ := h.node hn
    obtain ⟨pruned'', hn'', hpruned''⟩ := h'.node hn'
    refine ⟨pruned'', ?_, fun hp => hpruned'' (hpruned' hp)⟩
    rw [hn'']
    simp only [Node.heardBy, List.filter_filter, hboth]
  · obtain ⟨pruned', hn', -⟩ := h.node hn
    by_cases hl' : g'.keeps l = true
    · cases hp : pruned' with
      | true =>
        have := h.closed hn hlive (by rw [keeps_eq hn', hp]; rfl) hl
        simp [hl'] at this
      | false => exact h'.closed hn' hp hm (List.mem_filter.mpr ⟨hl, hl'⟩)
    · by_contra hnot
      exact hl' (h'.keeps_of_keeps (by simpa using hnot))

/-- In a graph all listeners take part in runs. -/
theorem Ready.filter_keeps {g : Graph W} (h : g.Ready) {m : Nat} {n : Node W}
    (hn : g.nodes[m]? = some n) : n.listeners.filter g.keeps = n.listeners := by
  refine List.filter_eq_self.mpr fun l hl => ?_
  have hlive : (wiringOf g.nodes).pruned l = false :=
    h.wired.live (u := m) (by simpa [wiringOf, hn] using hl)
  simp [keeps, hlive]

theorem Ready.trims_refl {g : Graph W} (h : g.Ready) : g.Trims g := by
  refine ⟨rfl, fun {m n} hn => ⟨n.pruned, ?_, fun hp => hp⟩, fun {m l n} hn hlive hm _ => ?_⟩
  · rw [h.filter_keeps hn]
    exact hn
  · simp [keeps_eq hn, hlive] at hm

theorem getElem?_unlink (g : Graph W) (id : Nat) (needs : List Nat) (m : Nat) :
    (g.unlink id needs).nodes[m]? = g.nodes[m]?.map fun n =>
      if m ∈ needs then n.heardBy (n.listeners.filter (· ≠ id)) else n := by
  obtain ⟨name, nodes⟩ := g
  simp only [unlink]
  induction needs generalizing nodes with
  | nil => simp
  | cons p rest ih =>
    rw [List.foldl_cons, ih, List.getElem?_modify]
    cases nodes[m]? with
    | none => rfl
    | some n =>
      simp only [Option.map_eq_map, Option.map_some, Option.some.injEq, List.mem_cons]
      by_cases hp : p = m
      · subst hp
        rw [if_pos rfl]
        by_cases hrest : p ∈ rest <;> simp [hrest, Node.heardBy, List.filter_filter]
      · simp [hp, Ne.symm hp]

theorem length_unlink (g : Graph W) (id : Nat) (needs : List Nat) :
    (g.unlink id needs).nodes.length = g.nodes.length := by
  have hsize : (wiringOf (g.unlink id needs).nodes).size = (wiringOf g.nodes).size := by
    rw [wiringOf_unlink]
    rfl
  exact hsize

theorem Ready.trims_pruneOne {g : Graph W} (h : g.Ready) (c : Candidate) :
    g.Trims (g.pruneOne c).1 := by
  unfold Graph.pruneOne
  split
  · exact h.trims_refl
  split
  · exact h.trims_refl
  rename_i id _ _ n hn
  split
  · exact h.trims_refl
  rename_i htest
  have hleaf : n.listeners = [] := by
    simp only [Bool.or_eq_true, Bool.not_eq_true', not_or, Bool.not_eq_false, Node.isLeaf,
      List.isEmpty_iff] at htest
    exact htest.2
  have hlt := (List.getElem?_eq_some_iff.mp hn).1
  have hkeeps : Graph.keeps { g.unlink id n.needs with
      nodes := (g.unlink id n.needs).nodes.modify id fun n => { n with pruned := true } } =
        fun l => decide (l ≠ id) && g.keeps l := by
    funext l
    simp only [keeps, wiringOf_prune, wiringOf_unlink, Wiring.relist, length_unlink, hlt, and_true]
    by_cases hl : l = id <;> simp [hl]
  refine ⟨?_, fun {m k} hk => ⟨k.pruned || decide (id = m), ?_, fun hp => by simp [hp]⟩,
    fun {m l k} hk hlive hm hl => ?_⟩
  · exact (List.length_modify ..).trans (length_unlink ..)
  · -- only who needs the node has it on its list
    have hlist : (k.listeners.filter fun l => decide (l ≠ id) && g.keeps l) =
        if m ∈ n.needs then k.listeners.filter (· ≠ id) else k.listeners := by
      rw [← List.filter_filter, h.filter_keeps hk]
      split
      · rfl
      · rename_i hm
        refine List.filter_eq_self.mpr fun l hl => decide_eq_true fun heq => hm ?_
        have hneeds : m ∈ (wiringOf g.nodes).needs l :=
          h.wired.mem_needs (by simpa [wiringOf, hk] using hl)
        simpa [wiringOf, heq, hn] using hneeds
    simp only [hkeeps, hlist, List.getElem?_modify, getElem?_unlink, hk]
    by_cases hid : id = m <;> by_cases hm : m ∈ n.needs <;> simp [hid, hm, Node.heardBy]
  · rw [hkeeps] at hm
    have hid : m = id := by simpa [keeps_eq hk, hlive] using hm
    subst hid
    rw [hn] at hk
    cases hk
    rw [hleaf] at hl
    exact absurd hl List.not_mem_nil

theorem Ready.trims_pruneRound {g : Graph W} (h : g.Ready) (cs : List Candidate) :
    g.Trims (g.pruneRound cs).1 := by
  induction cs generalizing g with
  | nil => exact h.trims_refl
  | cons c rest ih => exact (h.trims_pruneOne c).trans (ih (h.pruneOne c))

theorem Ready.trims_pruneRounds {g : Graph W} (h : g.Ready) (cs : List Candidate) (fuel : Nat) :
    g.Trims (Graph.pruneRounds cs fuel g).1 := by
  induction fuel generalizing g with
  | zero => exact h.trims_refl
  | succ fuel ih =>
    have hround := h.trims_pruneRound cs
    have hready := h.pruneRound cs
    unfold Graph.pruneRounds
    split
    · rename_i heq
      rw [heq] at hround
      exact hround
    · rename_i heq
      rw [heq] at hround hready
      exact hround.trans (ih hready)

/-- Pruning takes away whole branches and leaves the rest as it was. -/
theorem Ready.trims_prune {g : Graph W} (h : g.Ready) (candidates : List Candidate) :
    g.Trims (g.prune candidates).1 := h.trims_pruneRounds candidates _

/-! ## The roots that survive -/

namespace Trims

variable {g g' : Graph W} (h : g.Trims g')

include h

theorem absent {m : Nat} (hm : g.nodes[m]? = none) : g'.nodes[m]? = none := by
  rw [List.getElem?_eq_none_iff] at hm ⊢
  exact h.length ▸ hm

theorem map_eq {α : Type} {f : Node W → α}
    (hf : ∀ n ls pruned, f { n.heardBy ls with pruned } = f n) (m : Nat) :
    g'.nodes[m]?.map f = g.nodes[m]?.map f := by
  cases hn : g.nodes[m]? with
  | none => rw [h.absent hn]
  | some n =>
    obtain ⟨pruned, hn', -⟩ := h.node hn
    rw [hn', Option.map_some, Option.map_some, hf]

theorem index : g'.index = g.index := by
  have hkeys : g'.nodes.map (·.key) = g.nodes.map (·.key) := by
    refine List.ext_getElem? fun m => ?_
    rw [List.getElem?_map, List.getElem?_map]
    exact h.map_eq (fun _ _ _ => rfl) m
  have hlist : ∀ g : Graph W, (g.nodes.zipIdx.map fun node => (node.1.key, node.2)) =
      (g.nodes.map (·.key)).zipIdx := fun g => by
    rw [List.zipIdx_map]
    rfl
  unfold Graph.index
  rw [hlist, hlist, hkeys]

theorem roots : g'.roots = g.roots := by
  unfold Graph.roots select
  rw [h.index]
  refine List.filter_congr fun r _ => ?_
  obtain ⟨key, id⟩ := r
  exact congrArg (·.getD false) (h.map_eq (f := (·.isRoot)) (fun _ _ _ => rfl) id)

/-- The roots that are driven are those that were, less the pruned ones. -/
theorem driven (inputs : Inputs) : g'.driven inputs = Run.keptOf g'.keeps (g.driven inputs) := by
  unfold Graph.driven Run.keptOf
  rw [h.roots, List.filter_filterMap]
  refine List.filterMap_congr fun r _ => ?_
  obtain ⟨key, id⟩ := r
  dsimp only
  cases hn : g.nodes[id]? with
  | none =>
    rw [h.absent hn]
    rfl
  | some n =>
    obtain ⟨pruned, hn', hpruned⟩ := h.node hn
    have hkeeps := keeps_eq hn'
    rw [hn']
    cases pruned with
    | true =>
      cases hp : n.pruned <;> cases hd : inputs.get? key <;> simp_all [Option.filter]
    | false =>
      have hp : n.pruned = false := by simpa using hpruned
      cases hd : inputs.get? key <;> simp_all [Option.filter]

end Trims

/-! ## What is not pruned -/

section Spared

variable {g g' : Graph W} {m u : Nat} {n : Node W}

/-- Who is pruned was pruned before, or is a candidate that is not stored. -/
theorem pruned_pruneOne {c : Candidate} (hn : (g.pruneOne c).1.nodes[m]? = some n)
    (hpruned : n.pruned = true) :
    (∃ k, g.nodes[m]? = some k ∧ k.key = n.key ∧ k.pruned = true) ∨ (n.key, false) = c := by
  unfold Graph.pruneOne at hn
  split at hn
  · exact Or.inl ⟨n, hn, rfl, hpruned⟩
  split at hn
  · exact Or.inl ⟨n, hn, rfl, hpruned⟩
  rename_i id hfind _ k hk
  split at hn
  · exact Or.inl ⟨n, hn, rfl, hpruned⟩
  rename_i htest
  simp only [List.getElem?_modify, getElem?_unlink, Option.map_eq_map, Option.map_map,
    Option.map_eq_some_iff, Function.comp_apply] at hn
  obtain ⟨k', hk', rfl⟩ := hn
  by_cases hid : id = m
  · subst hid
    rw [hk] at hk'
    cases hk'
    have hkey : k.key = c.1 := by
      obtain ⟨hlt, heq, -⟩ := List.findIdx?_eq_some_iff_getElem.mp hfind
      rw [List.getElem?_eq_getElem hlt] at hk
      cases hk
      exact beq_iff_eq.mp heq
    have hstored : c.2 = false := by
      cases hc : c.2 <;> simp_all
    refine Or.inr (Prod.ext ?_ hstored.symm)
    rw [if_pos rfl, ← hkey]
    split <;> rfl
  · rw [if_neg hid] at hpruned ⊢
    refine Or.inl ⟨k', hk', ?_, ?_⟩
    · split <;> rfl
    · split at hpruned <;> exact hpruned

theorem pruned_pruneRound {cs : List Candidate} (hn : (g.pruneRound cs).1.nodes[m]? = some n)
    (hpruned : n.pruned = true) :
    (∃ k, g.nodes[m]? = some k ∧ k.key = n.key ∧ k.pruned = true) ∨ (n.key, false) ∈ cs := by
  induction cs generalizing g with
  | nil => exact Or.inl ⟨n, hn, rfl, hpruned⟩
  | cons c rest ih =>
    rcases ih (g := (g.pruneOne c).1) hn with ⟨k, hk, hkey, hwas⟩ | hmem
    · rcases pruned_pruneOne hk hwas with ⟨k', hk', hkey', hwas'⟩ | hc
      · exact Or.inl ⟨k', hk', hkey'.trans hkey, hwas'⟩
      · exact Or.inr (hkey ▸ hc ▸ List.mem_cons_self)
    · exact Or.inr (List.mem_cons_of_mem _ hmem)

theorem pruned_pruneRounds {cs : List Candidate} {fuel : Nat}
    (hn : (pruneRounds cs fuel g).1.nodes[m]? = some n) (hpruned : n.pruned = true) :
    (∃ k, g.nodes[m]? = some k ∧ k.key = n.key ∧ k.pruned = true) ∨ (n.key, false) ∈ cs := by
  induction fuel generalizing g with
  | zero => exact Or.inl ⟨n, hn, rfl, hpruned⟩
  | succ fuel ih =>
    have hround : ∀ k : Node W, (g.pruneRound cs).1.nodes[m]? = some k → k.pruned = true →
        (∃ k', g.nodes[m]? = some k' ∧ k'.key = k.key ∧ k'.pruned = true) ∨ (k.key, false) ∈ cs :=
      fun k => pruned_pruneRound
    unfold Graph.pruneRounds at hn
    split at hn
    · rename_i heq
      rw [heq] at hround
      exact hround n hn hpruned
    · rename_i heq
      rw [heq] at hround
      rcases ih hn with ⟨k, hk, hkey, hwas⟩ | hmem
      · exact hkey ▸ hround k hk hwas
      · exact Or.inr hmem

/-- Who is pruned in a graph without pruned nodes is a candidate that is not stored. -/
theorem candidate_of_pruned {cs : List Candidate} (hlive : ∀ m, (wiringOf g.nodes).pruned m = false)
    (hn : (g.prune cs).1.nodes[m]? = some n) (hpruned : n.pruned = true) : (n.key, false) ∈ cs := by
  refine (pruned_pruneRounds hn hpruned).resolve_left ?_
  rintro ⟨k, hk, -, hwas⟩
  have := hlive m
  simp [wiringOf, hk, hwas] at this

/-- What is not pruned listens to all it needs, as before. -/
theorem Trims.linked (h : g.Trims g') (hlinked : (wiringOf g.nodes).Linked m)
    (hm : g'.keeps m = true) : (wiringOf g'.nodes).Linked m := by
  have hneeds : (wiringOf g'.nodes).needs m = (wiringOf g.nodes).needs m :=
    congrArg (fun needs : Option (List Nat) => needs.getD [])
      (h.map_eq (f := (·.needs)) (fun _ _ _ => rfl) m)
  intro u
  rw [hneeds, ← hlinked u]
  cases hu : g.nodes[u]? with
  | none => simp [wiringOf, hu, h.absent hu]
  | some k =>
    obtain ⟨pruned, hk, -⟩ := h.node hu
    simp only [wiringOf, hu, hk, Option.map_some, Option.getD_some, Node.heardBy]
    exact List.count_filter hm

/-- What is not pruned is left with all that it needs. -/
theorem Trims.keeps_needs (h : g.Trims g') (hintact : (wiringOf g.nodes).Intact)
    (hn : g.nodes[m]? = some n) (hu : u ∈ n.needs) (hm : g'.keeps m = true) :
    g'.keeps u = true := by
  have hneeds : u ∈ (wiringOf g.nodes).needs m := by simpa [wiringOf, hn] using hu
  have hlistens : m ∈ (wiringOf g.nodes).listeners u :=
    List.count_pos_iff.mp ((hintact m).1 u ▸ List.count_pos_iff.mpr hneeds)
  cases hk : g.nodes[u]? with
  | none => simp [wiringOf, hk] at hlistens
  | some k =>
    by_contra hgone
    have hlive : k.pruned = false := by simpa [wiringOf, hk] using (hintact u).2
    have hcut := h.closed hk hlive (by simpa using hgone)
      (by simpa [wiringOf, hk] using hlistens)
    rw [hm] at hcut
    cases hcut

end Spared

/-! ## Runs of a pruned graph -/

theorem actsAt_filter {j : List JournalEntry} {kept : Nat → Bool} {m : Nat} (hm : kept m = true) :
    actsAt (j.filter fun e => kept e.node) m = actsAt j m := by
  unfold actsAt
  rw [List.filterMap_filter]
  refine List.filterMap_congr fun e _ => ?_
  by_cases he : e.node = m
  · simp [he, hm]
  · simp [he]

/-- The components share no state: in surroundings that are the same, those that take part in runs
do the same, and the pruned ones leave what they find the same. -/
structure Apart (same : W → W → Prop) (g : Graph W) : Prop where
  equivalence : Equivalence same
  stays : ∀ {m : Nat} {n : Node W}, g.nodes[m]? = some n → n.pruned = false →
    n.component.Respects same
  goes : ∀ {m : Nat} {n : Node W}, g.nodes[m]? = some n → n.pruned = true →
    n.component.Detached same

section Runs

variable {g g' : Graph W} {same : W → W → Prop}

/-- A graph that was pruned is the shadow of what it was. -/
theorem Trims.shadow (h : g.Trims g') (hready' : g'.Ready) (hapart : g'.Apart same) (world : W) :
    Run.Shadow same (wiringOf g.nodes) g'.keeps ⟨g.nodes, world, []⟩ ⟨g'.nodes, world, []⟩ := by
  refine ⟨rfl, h.length, fun {m n} hm hn => ?_, fun {m n} hm hp hn => ?_, fun {m n} _ hn => ?_,
    hapart.equivalence.refl world, rfl⟩
  · obtain ⟨pruned, hn', hpruned⟩ := h.node hn
    have hlive : pruned = false := by simpa [keeps_eq hn'] using hm
    have hwas : n.pruned = pruned := by
      cases hp : n.pruned with
      | false => exact hlive.symm
      | true => exact (hpruned hp).symm
    have hrespects := hapart.stays hn' hlive
    exact ⟨hrespects, by rw [hn', ← hwas]; rfl⟩
  · obtain ⟨pruned, hn', -⟩ := h.node hn
    have hgone : pruned = true := by simpa [keeps_eq hn'] using hm
    have hdetached := hapart.goes hn' hgone
    exact hdetached.mono fun {w w₁} h w' hw =>
      hapart.equivalence.trans (hapart.equivalence.symm h) hw
  · exact (hready'.fresh n (List.mem_of_getElem? hn)).acquired

theorem Trims.closedNet (h : g.Trims g') : Run.Closed (wiringOf g.nodes) g'.keeps := by
  intro m hm hlive l hl
  cases hn : g.nodes[m]? with
  | none => simp [wiringOf, hn] at hl
  | some n =>
    refine h.closed hn ?_ hm ?_
    · simpa [wiringOf, hn] using hlive
    · simpa [wiringOf, hn] using hl

/-- A pruned node is never called. -/
theorem Course.idle {world : W} {result : Except GraphError Unit} {all : Bool} {r₁ r₂ r₃ : Run W}
    (h : g.Course world result all r₁ r₂ r₃) (hready : g.Ready) {m : Nat} {n : Node W}
    (hn : g.nodes[m]? = some n) (hpruned : n.pruned = true) :
    callsAt r₃.journal.reverse m = [] := by
  have hopens : r₁.acts m = [] := List.eq_nil_iff_forall_not_mem.mpr fun act hact => by
    obtain ⟨n', hn', hlive⟩ := h.opens.live hact
    rw [hn] at hn'
    cases hn'
    simp [hpruned] at hlive
  have hwork : workAt r₂.journal.reverse m = [] :=
    h.sound.idle (by simpa [wiringOf, hn] using hpruned)
  have hcalls := h.calls m
  rw [hopens, hwork] at hcalls
  obtain ⟨n₁, n₂, -, hopened, hn₂, -, hacquired⟩ := h.node hn
  rw [hopens] at hopened
  have hasleep : n₂.acquired = false := by
    rcases hopened.acquired (hready.fresh n (List.mem_of_getElem? hn)).acquired with
      ⟨-, hacts⟩ | ⟨hno, -⟩
    · cases hacts
    · exact hacquired.trans hno
  have hout : m ∉ Run.idsOf r₂.nodes (·.acquired) := fun hmem => by
    obtain ⟨k, hk, htrue⟩ := Run.mem_idsOf.mp hmem
    rw [hn₂] at hk
    cases hk
    simp [hasleep] at htrue
  have hacts : actsAt r₃.journal.reverse m = actsAt r₂.journal.reverse m :=
    (h.releases.other hout).2
  rw [callsAt, hacts]
  exact hcalls

theorem run_given {inputs : Inputs} (world : W)
    (h : (g.roots.all fun (key, _) => inputs.contains key) = true) :
    g.run inputs world =
      let ended := Run.whole (g.driven inputs) ⟨g.nodes, world, []⟩
      (({ g with nodes := ended.1.nodes }, ended.1.world, ended.1.journal.reverse), ended.2) :=
  if_pos h

/-- A run that answers goes the same way without what was pruned: its journal is that of the
graph as it was, less what happened at pruned nodes. -/
theorem Trims.run_eq_ok (h : g.Trims g') (hready : g.Ready) (hready' : g'.Ready)
    (hapart : g'.Apart same) (inputs : Inputs) (world : W)
    (hok : (g.run inputs world).2 = .ok ()) :
    (g'.run inputs world).2 = .ok () ∧
      g'.journal inputs world = (g.journal inputs world).filter (fun e => g'.keeps e.node) ∧
        same (g.run inputs world).1.2.1 (g'.run inputs world).1.2.1 := by
  have hinputs := inputs_of_ok hok
  have hinputs' : (g'.roots.all fun (key, _) => inputs.contains key) = true := h.roots ▸ hinputs
  unfold journal
  rw [run_given world hinputs] at hok ⊢
  rw [run_given world hinputs', h.driven]
  have hstart := h.shadow hready' hapart world
  obtain ⟨r₃', hwhole, hshadow⟩ := hstart.of_whole h.closedNet
    (drivable hready inputs).live (fun {m n} hm hn => by simpa [keeps_eq hn] using hm)
    (fun {m n} hn => (hready.fresh n (List.mem_of_getElem? hn)).acquired) (Prod.ext rfl hok)
  rw [hwhole]
  refine ⟨rfl, ?_, hshadow.world⟩
  dsimp only
  rw [hshadow.journal, List.filter_reverse]

/-- Pruning is invisible to what survives. A pruned node is never called, however the run goes.
And if the run of the graph answers, so does the run of the pruned graph: what happens at each
node that survives is the same, and the surroundings are the same after it. -/
theorem survivors_run_alike (hbuilt : g.Built) (candidates : List Candidate)
    (hapart : (g.prune candidates).1.Apart same) (inputs : Inputs) (world : W) :
    (∀ (m : Nat) (n : Node W), (g.prune candidates).1.nodes[m]? = some n → n.pruned = true →
      callsAt ((g.prune candidates).1.journal inputs world) m = []) ∧
    ((g.run inputs world).2 = .ok () →
      ((g.prune candidates).1.run inputs world).2 = .ok () ∧
      (∀ (m : Nat) (n : Node W), (g.prune candidates).1.nodes[m]? = some n → n.pruned = false →
        actsAt ((g.prune candidates).1.journal inputs world) m =
          actsAt (g.journal inputs world) m) ∧
      same (g.run inputs world).1.2.1 ((g.prune candidates).1.run inputs world).1.2.1) := by
  have hready := hbuilt.ready
  have hready' := (hbuilt.prune candidates).ready
  have htrims := hready.trims_prune candidates
  refine ⟨fun m n hn hpruned => ?_, fun hok => ?_⟩
  · by_cases hinputs : ((g.prune candidates).1.roots.all fun (key, _) => inputs.contains key) = true
    · obtain ⟨all, r₁, r₂, r₃, hcourse, heq⟩ := course hready' world hinputs
      rw [journal, heq]
      exact hcourse.idle hready' hn hpruned
    · rw [journal, run_missing world hinputs]
      rfl
  · obtain ⟨hok', hjournal, hworld⟩ := htrims.run_eq_ok hready hready' hapart inputs world hok
    refine ⟨hok', fun m n hn hlive => ?_, hworld⟩
    rw [hjournal]
    exact actsAt_filter (by simp [keeps_eq hn, hlive])

end Runs

/-! ## A graph with a branch that nobody listens to -/

/-- Passes chunks on, and counts them in its surroundings. -/
def counter (count : Nat × Nat → Nat × Nat) : Component (Nat × Nat) where
  State := Unit
  start := ()
  transform data s w := (.ok [.ok data], s, count w)

/-- A root and a listener that count in the one place, and a listener that counts in the other. -/
def forked : Graph (Nat × Nat) :=
  ⟨"forked", [{ Node.new "a" (counter fun w => (w.1 + 1, w.2)) [] with listeners := [1, 2] },
    Node.new "b" (counter fun w => (w.1, w.2 + 1)) [0],
    Node.new "c" (counter fun w => (w.1 + 1, w.2)) [0]]⟩

theorem forked_built : forked.Built :=
  .add (.add (.add (.empty "forked") (show (Graph.empty "forked").add "a" _ [] = .ok (0, _) from rfl))
    (show Graph.add _ "b" _ [0] = .ok (1, _) from rfl))
    (show Graph.add _ "c" _ [0] = .ok (2, forked) from rfl)

theorem forked_apart :
    (forked.prune [("b", false), ("c", true)]).1.Apart fun w w' : Nat × Nat => w.1 = w'.1 := by
  have hkept : (counter fun w => (w.1 + 1, w.2)).Respects fun w w' : Nat × Nat => w.1 = w'.1 :=
    ⟨fun _ _ _ _ h => ⟨_, h, rfl⟩, fun _ _ _ h => ⟨_, h, rfl⟩,
      fun {w w'} _ _ h => ⟨(w'.1 + 1, w'.2), congrArg (· + 1) h, rfl⟩, fun _ h => ⟨_, h, rfl⟩,
      fun _ h => ⟨_, h, rfl⟩, fun _ h => ⟨_, h, rfl⟩⟩
  have hleft : (counter fun w => (w.1, w.2 + 1)).Detached fun w w' : Nat × Nat => w.1 = w'.1 :=
    ⟨⟨fun _ _ _ _ _ => rfl, fun _ _ _ _ => rfl, fun _ _ _ => rfl, fun _ _ => rfl, fun _ _ => rfl⟩,
      fun _ _ => rfl⟩
  refine ⟨⟨fun _ => rfl, Eq.symm, Eq.trans⟩, fun {m n} hn hlive => ?_, fun {m n} hn hpruned => ?_⟩
  all_goals
    match m with
    | 0 | 2 => cases hn; first | exact hkept | cases hpruned
    | 1 => cases hn; first | exact hleft | cases hlive
    | m + 3 => cases hn

theorem forked_survivors_run_alike :
    (forked.run oneChunk (0, 0)).2 = .ok () ∧
      callsAt ((forked.prune [("b", false), ("c", true)]).1.journal oneChunk (0, 0)) 1 = [] ∧
      actsAt ((forked.prune [("b", false), ("c", true)]).1.journal oneChunk (0, 0)) 2 =
        actsAt (forked.journal oneChunk (0, 0)) 2 ∧
      (forked.run oneChunk (0, 0)).1.2.1.1 =
        ((forked.prune [("b", false), ("c", true)]).1.run oneChunk (0, 0)).1.2.1.1 := by
  have hok : (forked.run oneChunk (0, 0)).2 = .ok () := eq_ok_of_isDone (by decide +kernel)
  obtain ⟨hidle, hrun⟩ := survivors_run_alike forked_built [("b", false), ("c", true)] forked_apart
    oneChunk (0, 0)
  exact ⟨hok, hidle 1 _ rfl rfl, (hrun hok).2.1 2 _ rfl rfl, (hrun hok).2.2⟩

end Graph

end FeatureGraph
