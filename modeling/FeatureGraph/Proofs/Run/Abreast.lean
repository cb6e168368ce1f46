-- Two runs of one graph, in surroundings that are the same to all of its
-- components. They go side by side, call by call, to the same answer or to the
-- same failure.
import FeatureGraph.Proofs.Graph.Calls
import FeatureGraph.Proofs.Run.Shadow

namespace FeatureGraph

variable {W : Type} {same : W → W → Prop}

namespace Run

/-- Runs that differ only in what no component sees. -/
structure Abreast (same : W → W → Prop) (r r' : Run W) : Prop where
  nodes : r'.nodes = r.nodes
  journal : r'.journal = r.journal
  world : same r.world r'.world
  respects : ∀ {m : Nat} {n}, r.nodes[m]? = some n → n.component.Respects same

/-- A stage that answers or fails alike in both runs, and keeps them side by side. -/
def Even {α : Type} (same : W → W → Prop) (p : Stage W α) : Prop :=
  ∀ r r', Abreast same r r' → (p r').2 = (p r).2 ∧ Abreast same (p r).1 (p r').1

/-! ## The rules -/

section Rules

variable {α β ι : Type} {id : Nat}

theorem even_pure (a : α) : Even same (pure a : Stage W α) := fun _ _ h => ⟨rfl, h⟩

theorem even_look (id : Nat) (absent : α) (f : Node W → α) : Even same (look id absent f) := by
  intro r r' h
  refine ⟨?_, h⟩
  show Except.ok ((r'.nodes[id]?.map f).getD absent) = _
  rw [h.nodes]
  rfl

theorem even_bind {p : Stage W α} {f : α → Stage W β} (hp : Even same p)
    (hf : ∀ a, Even same (f a)) : Even same (p >>= f) := by
  intro r r' h
  obtain ⟨hanswer, hafter⟩ := hp r r' h
  rw [Procedure.bind_apply, Procedure.bind_apply]
  rcases heq : p r with ⟨s, e | a⟩
  all_goals
    rcases heq' : p r' with ⟨s', answer⟩
    rw [heq, heq'] at hanswer hafter
    cases hanswer
  · exact ⟨rfl, hafter⟩
  · exact hf a s s' hafter

theorem even_each {f : ι → Stage W Unit} (hf : ∀ x, Even same (f x)) (xs : List ι) :
    Even same (Procedure.each f xs) := by
  induction xs with
  | nil => exact even_pure ()
  | cons x rest ih => exact even_bind (hf x) fun _ => ih

theorem even_demand (id : Nat) (result : Except ComponentError α) :
    Even same (demand id result : Stage W α) := by
  cases result with
  | ok a => exact even_pure a
  | error e => exact even_bind (even_look id "" (·.key)) fun key r r' h => ⟨rfl, h⟩

theorem even_note (id : Nat) (act : Act) : Even same (note id act : Stage W Unit) := by
  intro r r' h
  exact ⟨rfl, h.nodes, congrArg (JournalEntry.mk id act :: ·) h.journal, h.world, h.respects⟩

theorem even_finalize (provider listener : Nat) :
    Even same (finalize provider listener : Stage W Unit) := by
  intro r r' h
  refine ⟨rfl, congrArg (List.modify · listener _) h.nodes, h.journal, h.world, fun {m n} hn => ?_⟩
  obtain ⟨k, hk, rfl⟩ := getElem?_finalize hn
  have hcomponent := h.respects hk
  split
  · exact hcomponent
  · exact hcomponent

/-- A call sees of its node and of the surroundings what its component sees. -/
theorem even_hook {absent : α} {call : Node W → W → α × Node W × W} {act : Node W → α → Act}
    (hcall : Sees same call) : Even same (hook id absent call act) := by
  intro r r' h
  cases hn : r.nodes[id]? with
  | none =>
    have hn' : r'.nodes[id]? = none := by rw [h.nodes, hn]
    rw [hook_absent hn, hook_absent hn']
    exact ⟨rfl, h⟩
  | some n =>
    have hn' : r'.nodes[id]? = some n := by rw [h.nodes, hn]
    have halike := hcall.alike n r.world
    obtain ⟨w₁, hworld, heq⟩ := hcall.follows (h.respects hn) h.world n.listeners
    -- nothing changes who listens
    have hcalled : call n r'.world = ((call n r.world).1, (call n r.world).2.1, w₁) := by
      have hheard : (call n r.world).2.1.heardBy n.listeners = (call n r.world).2.1 := by
        rw [← halike.listeners]
        rfl
      rw [hheard] at heq
      exact heq
    rw [hook_apply hn, hook_apply hn', hcalled]
    refine ⟨rfl, congrArg (List.set · id _) h.nodes, congrArg (_ :: ·) h.journal, hworld,
      fun {m k} hk => ?_⟩
    by_cases hid : id = m
    · subst hid
      rw [after_getElem?_self (List.getElem?_eq_some_iff.mp hn).1] at hk
      cases hk
      rw [halike.component]
      exact h.respects hn
    · rw [after_getElem?_ne hid] at hk
      exact h.respects hk

end Rules

/-! ## Every stage -/

section Stages

variable {receive : Receiver W}

theorem even_work (id : Nat) : Even same (work id : Stage W (Option Output)) := by
  refine even_bind (even_hook sees_dequeue) fun got => ?_
  cases got with
  | none => exact even_pure none
  | some data =>
    exact even_bind (even_hook (sees_transform data)) fun result =>
      even_bind (even_demand id result) fun out => even_pure (some out)

theorem even_push (hr : ∀ id data u, Even same (receive id data u)) (id : Nat)
    (data : Option Payload) : Even same (push receive id data) :=
  even_bind (even_look _ _ _) fun listeners => even_each (fun l => hr l data id) listeners

theorem even_emit (hr : ∀ id data u, Even same (receive id data u)) (id : Nat)
    (chunk : Except ComponentError Payload) : Even same (emit receive id chunk) :=
  even_bind (even_demand id chunk) fun data =>
    even_bind (even_note id (.emit data)) fun _ => even_push hr id (some data)

theorem even_complete (hr : ∀ id data u, Even same (receive id data u)) (id : Nat) :
    Even same (complete receive id) := by
  refine even_bind (even_look _ _ _) fun ended => ?_
  split
  · exact even_pure ()
  · refine even_bind (even_hook sees_lastChunk) fun result => ?_
    refine even_bind (even_demand id result) fun out => ?_
    refine even_bind (even_each (even_emit hr id) out) fun _ => ?_
    refine even_bind (even_look _ _ _) fun listeners => ?_
    exact even_bind (even_each (even_finalize id) listeners) fun _ => even_push hr id none

theorem even_deliver (hr : ∀ id data u, Even same (receive id data u)) (id : Nat)
    (data : Option Payload) (u : Nat) : Even same (deliver receive id data u) := by
  rw [deliver_eq]
  refine even_bind (even_look _ _ _) fun closed => ?_
  split
  · exact even_pure ()
  · refine even_bind ?_ fun _ => even_bind (even_work id) fun out => ?_
    · cases data with
      | none => exact even_pure ()
      | some data => exact even_hook (sees_enqueueFrom u data)
    · refine even_bind (even_each (even_emit hr id) _) fun _ => ?_
      refine even_bind (even_look _ _ _) fun finalized => ?_
      split
      · exact even_complete hr id
      · exact even_pure ()

theorem even_receive (depth : Nat) (id : Nat) (data : Option Payload) (u : Nat) :
    Even same (Run.receive (W := W) depth id data u) := by
  induction depth generalizing id data u with
  | zero => exact even_pure ()
  | succ depth ih => exact even_deliver ih id data u

theorem even_begin (hr : ∀ id data u, Even same (receive id data u)) (id : Nat) (data : Payload) :
    Even same (begin receive id data) := by
  refine even_bind (even_hook (sees_enqueueRoot data)) fun _ => ?_
  refine even_bind (even_work id) fun out => ?_
  cases out with
  | none => exact even_bind (even_complete hr id) fun _ => even_pure none
  | some out => exact even_pure (some out)

theorem even_beginAll (hr : ∀ id data u, Even same (receive id data u))
    (inputs : List (Nat × Payload)) : Even same (beginAll receive inputs) := by
  induction inputs with
  | nil => exact even_pure []
  | cons s rest ih =>
    refine even_bind (even_begin hr s.1 s.2) fun out => even_bind ih fun others => ?_
    cases out with
    | none => exact even_pure others
    | some out => exact even_pure _

theorem even_drive (hr : ∀ id data u, Even same (receive id data u))
    (inputs : List (Nat × Payload)) : Even same (drive receive inputs) := by
  refine even_bind (even_beginAll hr inputs) fun streams => even_each (fun turn => ?_) _
  obtain ⟨id, _ | chunk⟩ := turn
  · exact even_complete hr id
  · exact even_emit hr id chunk

theorem even_acquireAll (ids : List Nat) : Even same (acquireAll ids : Stage W Unit) :=
  even_each (fun id => even_bind (even_hook sees_acquire) fun result => even_demand id result) ids

theorem even_releaseAll (ids : List Nat) :
    Even same (releaseAll ids : Stage W (Option GraphError)) := by
  induction ids with
  | nil => exact even_pure none
  | cons id rest ih =>
    refine even_bind (even_hook sees_release) fun result => ?_
    refine even_bind (even_look id "" (·.key)) fun key => even_bind ih fun others => ?_
    cases result with
    | ok _ => exact even_pure others
    | error e => exact even_pure _

/-- The releases are the same, too: the same nodes were acquired. -/
theorem even_whole (inputs : List (Nat × Payload)) : Even same (whole inputs : Stage W Unit) := by
  intro r r' h
  have hids : idsOf r'.nodes (fun n => !n.pruned) = idsOf r.nodes fun n => !n.pruned := by
    rw [h.nodes]
  have hdepth : r'.nodes.length = r.nodes.length := by rw [h.nodes]
  obtain ⟨hanswer, hafter⟩ := even_bind (even_acquireAll (idsOf r.nodes fun n => !n.pruned))
    (fun _ => even_drive (even_receive r.nodes.length) inputs) r r' h
  unfold whole
  dsimp only
  rw [hids, hdepth]
  rcases heq : (acquireAll (idsOf r.nodes fun n => !n.pruned) >>= fun _ =>
    drive (receive r.nodes.length) inputs) r with ⟨r₁, result⟩
  rcases heq' : (acquireAll (idsOf r.nodes fun n => !n.pruned) >>= fun _ =>
    drive (receive r.nodes.length) inputs) r' with ⟨r₁', result'⟩
  rw [heq, heq'] at hanswer hafter
  dsimp only at hanswer hafter ⊢
  subst hanswer
  have hacquired : idsOf r₁'.nodes (·.acquired) = idsOf r₁.nodes (·.acquired) := by
    rw [hafter.nodes]
  obtain ⟨hreleased, hend⟩ := even_releaseAll (idsOf r₁.nodes (·.acquired)) r₁ r₁' hafter
  rw [hacquired]
  rcases hr : releaseAll (idsOf r₁.nodes (·.acquired)) r₁ with ⟨r₂, released⟩
  rcases hr' : releaseAll (idsOf r₁.nodes (·.acquired)) r₁' with ⟨r₂', released'⟩
  rw [hr, hr'] at hreleased hend
  dsimp only at hreleased hend
  subst hreleased
  rcases result' with e | _
  · exact ⟨rfl, hend⟩
  · rcases released' with e | _ | e
    · exact ⟨rfl, hend⟩
    · exact ⟨rfl, hend⟩
    · exact ⟨rfl, hend⟩

end Stages

end Run

/-- In surroundings that are the same to all components, a graph runs the same way: to the same
answer or the same failure, with the same journal. -/
theorem Graph.runs_alike {g : Graph W}
    (hrespects : ∀ {m : Nat} {n : Node W}, g.nodes[m]? = some n → n.component.Respects same)
    (inputs : Inputs) {world world' : W} (hworld : same world world') :
    (g.run inputs world').2 = (g.run inputs world).2 ∧
      g.journal inputs world' = g.journal inputs world ∧
      same (g.run inputs world).1.2.1 (g.run inputs world').1.2.1 := by
  obtain ⟨hanswer, hafter⟩ := Run.even_whole (g.driven inputs) ⟨g.nodes, world, []⟩
    ⟨g.nodes, world', []⟩ ⟨rfl, rfl, hworld, fun hn => hrespects hn⟩
  unfold Graph.journal Graph.run
  split
  · exact ⟨hanswer, congrArg List.reverse hafter.journal, hafter.world⟩
  · exact ⟨rfl, rfl, hworld⟩

end FeatureGraph
