-- Where a run stops. A call that fails is the last of the driving, so what a
-- node goes on with never rests on a failure. And data comes in at a place
-- that the node has for a provider it listens to.
import FeatureGraph.Proofs.Lists
import FeatureGraph.Proofs.Run.Steps

namespace FeatureGraph

variable {W : Type} {net : Wiring}

/-- Data comes in at the place of a provider that the node listens to, or at a root. -/
def Placed (net : Wiring) (id : Nat) (act : Act) : Prop :=
  ∀ input data, act = .enqueue input data → net.Root id ∨
    ∃ u, id ∈ net.listeners u ∧ input = (net.needs id).idxOf u

theorem mem_of_mem_actsAt {j : List JournalEntry} {id : Nat} {act : Act} (h : act ∈ actsAt j id) :
    (⟨id, act⟩ : JournalEntry) ∈ j := by
  obtain ⟨⟨node, act'⟩, he, heq⟩ := List.mem_filterMap.mp h
  dsimp only at heq
  split at heq
  · rename_i hnode
    cases heq
    exact hnode ▸ he
  · cases heq

namespace Run

/-- A run in which nothing has failed. -/
structure Upright (net : Wiring) (r : Run W) : Prop where
  wiring : wiringOf r.nodes = net
  placed : ∀ e ∈ r.journal, Placed net e.node e.act
  smooth : ∀ e ∈ r.journal, e.act.failed = false

/-- A run in which nothing has failed but the latest call. -/
structure Halted (net : Wiring) (r : Run W) : Prop where
  wiring : wiringOf r.nodes = net
  placed : ∀ e ∈ r.journal, Placed net e.node e.act
  smooth : ∀ e ∈ r.journal.tail, e.act.failed = false

theorem Upright.halted {r : Run W} (h : Upright net r) : Halted net r :=
  ⟨h.wiring, h.placed, fun e he => h.smooth e (List.mem_of_mem_tail he)⟩

/-- A stage that goes on only while nothing fails. -/
def Stops {α : Type} (net : Wiring) (p : Stage W α) : Prop :=
  ∀ r : Run W, Upright net r → p.Ensures r (fun _ r => Upright net r) (Halted net)

section Rules

variable {α β ι : Type} {id : Nat}

theorem stops_pure (a : α) : Stops net (pure a : Stage W α) := fun _ h => h

theorem stops_look (id : Nat) (absent : α) (f : Node W → α) :
    Stops net (look id absent f : Stage W α) := fun _ h => h

theorem stops_bind {p : Stage W α} {f : α → Stage W β} (hp : Stops net p)
    (hf : ∀ a, Stops net (f a)) : Stops net (p >>= f) := fun r h =>
  Procedure.ensures_bind <| (hp r h).mono (fun a r' h' => hf a r' h') (fun _ h' => h')

theorem stops_each {ι : Type} {f : ι → Stage W Unit} (xs : List ι)
    (hf : ∀ x ∈ xs, Stops net (f x)) : Stops net (Procedure.each f xs) := by
  induction xs with
  | nil => exact stops_pure ()
  | cons x rest ih =>
    exact stops_bind (hf x List.mem_cons_self) fun _ =>
      ih fun y hy => hf y (List.mem_cons_of_mem _ hy)

theorem stops_note {act : Act} (hplaced : Placed net id act) (hact : act.failed = false) :
    Stops net (note id act : Stage W Unit) := by
  intro r h
  refine Procedure.ensures_change ⟨h.wiring, ?_, ?_⟩
  · exact List.forall_mem_cons.mpr ⟨hplaced, h.placed⟩
  · exact List.forall_mem_cons.mpr ⟨hact, h.smooth⟩

theorem stops_finalize (provider listener : Nat) :
    Stops net (finalize provider listener : Stage W Unit) := by
  intro r h
  refine Procedure.ensures_change ⟨?_, h.placed, h.smooth⟩
  rw [← h.wiring]
  simp only [wiringOf, List.length_modify, List.getElem?_modify, Wiring.mk.injEq]
  refine ⟨trivial, ?_, ?_, ?_⟩ <;> funext u <;> grind

/-- After a call all is well unless the call itself has failed. -/
theorem ensures_hook {absent : α} {call : Node W → W → α × Node W × W} {act : Node W → α → Act}
    {r : Run W} {bad : Run W → Prop} (hook : Node W → Hook)
    (hcall : ∀ n w, (hook n).call n w = (act n (call n w).1, (call n w).2))
    (hplaced : ∀ n a, r.nodes[id]? = some n → Placed net id (act n a)) (h : Upright net r) :
    (Run.hook id absent call act).Ensures r
      (fun a r' => Halted net r' ∧ ((∀ n, (act n a).failed = false) → Upright net r')) bad := by
  unfold Procedure.Ensures Run.hook
  cases hn : r.nodes[id]? with
  | none => exact ⟨h.halted, fun _ => h⟩
  | some n =>
    have halike := ((hook n).alike n r.world).1
    rw [hcall] at halike
    have hwiring := (wiringOf_set hn halike).trans h.wiring
    have hall : ∀ e ∈ (⟨id, act n (call n r.world).1⟩ : JournalEntry) :: r.journal,
        Placed net e.node e.act := List.forall_mem_cons.mpr ⟨hplaced n _ hn, h.placed⟩
    exact ⟨⟨hwiring, hall, h.smooth⟩,
      fun hact => ⟨hwiring, hall, List.forall_mem_cons.mpr ⟨hact n, h.smooth⟩⟩⟩

/-- A call that cannot fail. -/
theorem stops_hook {absent : α} {call : Node W → W → α × Node W × W} {act : Node W → α → Act}
    (hook : Node W → Hook) (hcall : ∀ n w, (hook n).call n w = (act n (call n w).1, (call n w).2))
    (hplaced : ∀ r : Run W, wiringOf r.nodes = net → ∀ n a, r.nodes[id]? = some n →
      Placed net id (act n a))
    (hact : ∀ n a, (act n a).failed = false) : Stops net (Run.hook id absent call act) :=
  fun r h => (ensures_hook hook hcall (hplaced r h.wiring) h).mono
    (fun a _ h' => h'.2 fun n => hact n a) fun _ h' => h'

/-- A call and what is asked of its answer: if the answer is a failure the stage stops there. -/
theorem stops_demand {absent : Except ComponentError α}
    {call : Node W → W → Except ComponentError α × Node W × W}
    {act : Node W → Except ComponentError α → Act} {f : α → Stage W β} (hook : Node W → Hook)
    (hcall : ∀ n w, (hook n).call n w = (act n (call n w).1, (call n w).2))
    (hplaced : ∀ n a, Placed net id (act n a)) (hact : ∀ n a, (act n (.ok a)).failed = false)
    (hf : ∀ a, Stops net (f a)) :
    Stops net (do
      let result ← Run.hook id absent call act
      let out ← demand id result
      f out) := by
  intro r h
  refine Procedure.ensures_bind
    ((ensures_hook hook hcall (fun n a _ => hplaced n a) h).mono (fun result r' h' => ?_)
      fun _ h' => h')
  cases result with
  | ok a => exact hf a r' (h'.2 fun n => hact n a)
  | error e => exact h'.1

end Rules

/-! ## Every stage -/

section Stages

variable {receive : Receiver W}

theorem placed_of_ne {id : Nat} {act : Act} (h : ∀ input data, act ≠ .enqueue input data) :
    Placed net id act := fun input data heq => absurd heq (h input data)

theorem stops_work (id : Nat) : Stops net (work id : Stage W (Option Output)) := by
  refine stops_bind (stops_hook (fun _ => .dequeue) (fun _ _ => rfl)
    (fun _ _ _ _ _ => placed_of_ne (by simp)) fun _ _ => rfl) fun got => ?_
  cases got with
  | none => exact stops_pure none
  | some data =>
    exact stops_demand (fun _ => .transform data) (fun _ _ => rfl)
      (fun _ _ => placed_of_ne (by simp)) (fun _ _ => rfl) fun out => stops_pure (some out)

variable (hr : ∀ id data u, id ∈ net.listeners u → Stops net (receive id data u))

include hr

theorem stops_push (id : Nat) (data : Option Payload) : Stops net (push receive id data) := by
  intro r h
  refine Procedure.ensures_bind (Procedure.ensures_view ?_)
  have hlisteners : (r.nodes[id]?.map (·.listeners)).getD [] = net.listeners id := by
    rw [← h.wiring]
    rfl
  rw [hlisteners]
  exact stops_each _ (fun l hl => hr l data id hl) r h

theorem stops_emit (id : Nat) (chunk : Except ComponentError Payload) :
    Stops net (emit receive id chunk) := by
  cases chunk with
  | error e => exact fun _ h => h.halted
  | ok data =>
    exact stops_bind (stops_pure data) fun data =>
      stops_bind (stops_note (placed_of_ne (by simp)) rfl) fun _ => stops_push hr id (some data)

theorem stops_complete (id : Nat) : Stops net (complete receive id) := by
  refine stops_bind (stops_look _ _ _) fun ended => ?_
  split
  · exact stops_pure ()
  · refine stops_demand (fun _ => .lastChunk) (fun _ _ => rfl)
      (fun _ _ => placed_of_ne (by simp)) (fun _ _ => rfl) fun out => ?_
    refine stops_bind (stops_each _ fun chunk _ => stops_emit hr id chunk) fun _ => ?_
    refine stops_bind (stops_look _ _ _) fun listeners => ?_
    refine stops_bind (stops_each _ fun l _ => stops_finalize id l) fun _ => ?_
    exact stops_push hr id none

theorem stops_deliver (id : Nat) (data : Option Payload) (u : Nat) (hu : id ∈ net.listeners u) :
    Stops net (deliver receive id data u) := by
  rw [deliver_eq]
  refine stops_bind (stops_look _ _ _) fun closed => ?_
  split
  · exact stops_pure ()
  · refine stops_bind ?_ fun _ => stops_bind (stops_work id) fun out => ?_
    · cases data with
      | none => exact stops_pure ()
      | some data =>
        unfold takeIn
        refine stops_hook (fun _ => .enqueueFrom u data) (fun _ _ => rfl)
          (fun r hr n _ hn input d heq => ?_) fun _ _ => rfl
        cases heq
        have hneeds : net.needs id = n.needs := by simp [← hr, wiringOf, hn]
        exact Or.inr ⟨u, hu, by rw [hneeds, Node.inputOf]⟩
    · refine stops_bind (stops_each _ fun chunk _ => stops_emit hr id chunk) fun _ => ?_
      refine stops_bind (stops_look _ _ _) fun finalized => ?_
      split
      · exact stops_complete hr id
      · exact stops_pure ()

theorem stops_begin {id : Nat} (hroot : net.Root id) (data : Payload) :
    Stops net (begin receive id data) := by
  refine stops_bind (stops_hook (fun _ => .enqueueRoot data) (fun _ _ => rfl)
    (fun _ _ _ _ _ _ _ _ => Or.inl hroot) fun _ _ => rfl) fun _ => ?_
  refine stops_bind (stops_work id) fun out => ?_
  cases out with
  | none => exact stops_bind (stops_complete hr id) fun _ => stops_pure none
  | some out => exact stops_pure (some out)

/-- While roots are driven, a failure is the last that happens. -/
theorem stops_drive (inputs : List (Nat × Payload)) (hroot : ∀ s ∈ inputs, net.Root s.1) :
    Stops net (drive receive inputs) := by
  refine stops_bind ?_ fun streams => stops_each _ fun turn _ => ?_
  · induction inputs with
    | nil => exact stops_pure []
    | cons s rest ih =>
      refine stops_bind (stops_begin hr (hroot s List.mem_cons_self) s.2) fun out =>
        stops_bind (ih fun t ht => hroot t (List.mem_cons_of_mem _ ht)) fun others => ?_
      cases out with
      | none => exact stops_pure others
      | some out => exact stops_pure _
  · obtain ⟨id, _ | chunk⟩ := turn
    · exact stops_complete hr id
    · exact stops_emit hr id chunk

end Stages

theorem stops_receive (depth : Nat) (id : Nat) (data : Option Payload) (u : Nat)
    (hu : id ∈ net.listeners u) : Stops net (receive (W := W) depth id data u) := by
  induction depth generalizing id data u with
  | zero => exact stops_pure ()
  | succ depth ih => exact stops_deliver ih id data u hu

/-! ## What is known of a node when the driving is over -/

section Node

variable {r : Run W} {id : Nat}

/-- Nothing follows a failure, at any node. -/
theorem Halted.last (h : Halted net r) {before after : List Act} {act : Act}
    (heq : r.acts id = before ++ act :: after) (hact : act.failed = true) : after = [] := by
  have hnot : ∀ j : List JournalEntry, (∀ e ∈ j, e.act.failed = false) →
      ∀ act ∈ actsAt j.reverse id, act.failed = false := fun j hj act hact =>
    hj ⟨id, act⟩ (List.mem_reverse.mp (mem_of_mem_actsAt hact))
  obtain ⟨nodes, w, journal⟩ := r
  cases journal with
  | nil =>
    rw [acts] at heq
    simp [actsAt] at heq
  | cons e rest =>
    have hsmooth := hnot rest h.smooth
    rw [acts_note] at heq
    split at heq
    · rcases snoc_eq_append heq with ⟨-, -, hafter⟩ | ⟨front, -, hfront⟩
      · exact hafter
      · rw [hsmooth act (hfront ▸ List.mem_append_cons_self)] at hact
        cases hact
    · rw [List.append_nil] at heq
      rw [hsmooth act (heq ▸ List.mem_append_cons_self)] at hact
      cases hact

theorem Halted.placedAt (h : Halted net r) {act : Act} (hact : act ∈ r.acts id) :
    Placed net id act := h.placed ⟨id, act⟩ (List.mem_reverse.mp (mem_of_mem_actsAt hact))

end Node

end Run

end FeatureGraph
