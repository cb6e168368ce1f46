-- The steps that a run takes while its roots are driven. What every step
-- keeps holds at the end, however the run went. A law of one node that the
-- hooks of its component keep is a law of the node in every run.
import FeatureGraph.Proofs.Run.Ledger
import Mathlib.Logic.Relation

namespace FeatureGraph

variable {W : Type}

namespace Run

/-! ## Steps -/

/-- The hooks that are called while the roots are driven, with what they are given. -/
inductive Hook where
  | enqueueFrom (source : Nat) (data : Payload)
  | enqueueRoot (data : Payload)
  | dequeue
  | transform (data : Payload)
  | lastChunk

/-- What the journal says of a call, and what the call leaves of the node and the
surroundings. -/
def Hook.call : Hook → Node W → W → Act × Node W × W
  | .enqueueFrom source data, n, w =>
    (.enqueue (n.inputOf source) data, (n.enqueueFrom source data w).2)
  | .enqueueRoot data, n, w => (.enqueue 0 data, (n.enqueueRoot data w).2)
  | .dequeue, n, w => (.dequeue n.isFinalized (n.dequeue w).1, (n.dequeue w).2)
  | .transform data, n, w => (.transform data (n.transform data w).1, (n.transform data w).2)
  | .lastChunk, n, w => (.lastChunk (n.lastChunk w).1, (n.lastChunk w).2)

theorem Hook.alike (hook : Hook) (n : Node W) (w : W) :
    Alike n (hook.call n w).2.1 ∧ (hook.call n w).2.1.acquired = n.acquired := by
  cases hook <;> exact ⟨⟨rfl, rfl, rfl, rfl, rfl⟩, rfl⟩

theorem Hook.isWork (hook : Hook) (n : Node W) (w : W) : (hook.call n w).1.isWork = true := by
  cases hook <;> rfl

/-- One step of a run while its roots are driven. -/
inductive Step : Run W → Run W → Prop
  | call (hook : Hook) {r : Run W} {id : Nat} {n : Node W} (hn : r.nodes[id]? = some n) :
      Step r ⟨r.nodes.set id (hook.call n r.world).2.1, (hook.call n r.world).2.2,
        ⟨id, (hook.call n r.world).1⟩ :: r.journal⟩
  | emit (r : Run W) (id : Nat) (chunk : Payload) :
      Step r { r with journal := ⟨id, .emit chunk⟩ :: r.journal }
  | finalize (r : Run W) (provider listener : Nat) :
      Step r { r with
        nodes := r.nodes.modify listener fun n =>
          { n with finalized := n.finalized.insert provider } }

abbrev Steps : Run W → Run W → Prop := Relation.ReflTransGen Step

/-- A stage that goes by steps. -/
def Goes {α : Type} (p : Stage W α) : Prop := ∀ r, Steps r (p r).1

section Rules

variable {α β ι : Type}

theorem goes_pure (a : α) : Goes (pure a : Stage W α) := fun _ => .refl

theorem goes_look (id : Nat) (absent : α) (f : Node W → α) : Goes (look id absent f) :=
  fun _ => .refl

theorem goes_bind {p : Stage W α} {f : α → Stage W β} (hp : Goes p) (hf : ∀ a, Goes (f a)) :
    Goes (p >>= f) := by
  intro r
  have hfirst := hp r
  rw [Procedure.bind_apply]
  rcases heq : p r with ⟨r', _ | a⟩
  · rw [heq] at hfirst
    exact hfirst
  · rw [heq] at hfirst
    exact hfirst.trans (hf a r')

theorem goes_each {ι : Type} {f : ι → Stage W Unit} (hf : ∀ x, Goes (f x)) (xs : List ι) :
    Goes (Procedure.each f xs) := by
  induction xs with
  | nil => exact goes_pure ()
  | cons x rest ih => exact goes_bind (hf x) fun _ => ih

theorem goes_demand (id : Nat) (result : Except ComponentError α) :
    Goes (demand id result : Stage W α) := by
  cases result with
  | ok a => exact goes_pure a
  | error e => exact goes_bind (goes_look _ _ _) fun _ _ => .refl

theorem goes_hook {id : Nat} {absent : α} {call : Node W → W → α × Node W × W}
    {act : Node W → α → Act} (hook : Node W → Hook)
    (hcall : ∀ n w, (hook n).call n w = (act n (call n w).1, (call n w).2)) :
    Goes (Run.hook id absent call act) := by
  intro r
  unfold Run.hook
  split
  · exact .refl
  · rename_i n hn
    have hstep := Step.call (hook n) hn
    rw [hcall] at hstep
    exact .single hstep

end Rules

/-! ## The parts of a delivery -/

/-- The part of a delivery that takes in what it brings. -/
def takeIn (id u : Nat) (data : Option Payload) : Stage W Unit :=
  match data with
  | some data =>
    hook id () (Node.enqueueFrom u data) fun n _ => .enqueue (n.inputOf u) data
  | none => pure ()

/-- A delivery, part by part: what did not come out of the work is sent like an empty output. -/
theorem deliver_eq (receive : Receiver W) (id : Nat) (data : Option Payload) (u : Nat) :
    deliver receive id data u = (do
    let closed ← look id true fun n => n.pruned || n.completed
    if closed then pure ()
    else
      takeIn id u data
      let out ← work id
      Procedure.each (emit receive id) (out.getD [])
      let finalized ← look id false (·.isFinalized)
      if finalized then complete receive id else pure () : Stage W Unit) := by
  refine bind_congr fun closed => ?_
  split
  · rfl
  · cases data with
    | none => exact bind_congr fun out => by cases out <;> rfl
    | some d => exact bind_congr fun _ => bind_congr fun out => by cases out <;> rfl

/-! ## Every stage goes by steps -/

section Stages

variable {receive : Receiver W}

theorem goes_work (id : Nat) : Goes (work id : Stage W (Option Output)) := by
  refine goes_bind (goes_hook (fun _ => .dequeue) fun _ _ => rfl) fun got => ?_
  cases got with
  | none => exact goes_pure none
  | some data =>
    exact goes_bind (goes_hook (fun _ => .transform data) fun _ _ => rfl) fun result =>
      goes_bind (goes_demand id result) fun out => goes_pure (some out)

theorem goes_push (hr : ∀ id data u, Goes (receive id data u)) (id : Nat)
    (data : Option Payload) : Goes (push receive id data) :=
  goes_bind (goes_look _ _ _) fun listeners => goes_each (fun l => hr l data id) listeners

theorem goes_emit (hr : ∀ id data u, Goes (receive id data u)) (id : Nat)
    (chunk : Except ComponentError Payload) : Goes (emit receive id chunk) :=
  goes_bind (goes_demand id chunk) fun data =>
    goes_bind (fun r => .single (.emit r id data)) fun _ => goes_push hr id (some data)

theorem goes_complete (hr : ∀ id data u, Goes (receive id data u)) (id : Nat) :
    Goes (complete receive id) := by
  refine goes_bind (goes_look _ _ _) fun ended => ?_
  split
  · exact goes_pure ()
  · refine goes_bind (goes_hook (fun _ => .lastChunk) fun _ _ => rfl) fun result => ?_
    refine goes_bind (goes_demand id result) fun out => ?_
    refine goes_bind (goes_each (goes_emit hr id) out) fun _ => ?_
    refine goes_bind (goes_look _ _ _) fun listeners => ?_
    refine goes_bind (goes_each (fun l r => .single (.finalize r id l)) listeners) fun _ => ?_
    exact goes_push hr id none

theorem goes_deliver (hr : ∀ id data u, Goes (receive id data u)) (id : Nat)
    (data : Option Payload) (u : Nat) : Goes (deliver receive id data u) := by
  rw [deliver_eq]
  refine goes_bind (goes_look _ _ _) fun closed => ?_
  split
  · exact goes_pure ()
  · refine goes_bind ?_ fun _ => goes_bind (goes_work id) fun out => ?_
    · cases data with
      | none => exact goes_pure ()
      | some data => exact goes_hook (fun _ => .enqueueFrom u data) fun _ _ => rfl
    · refine goes_bind (goes_each (goes_emit hr id) _) fun _ => ?_
      refine goes_bind (goes_look _ _ _) fun finalized => ?_
      split
      · exact goes_complete hr id
      · exact goes_pure ()

theorem goes_receive (depth : Nat) (id : Nat) (data : Option Payload) (u : Nat) :
    Goes (Run.receive (W := W) depth id data u) := by
  induction depth generalizing id data u with
  | zero => exact goes_pure ()
  | succ depth ih => exact goes_deliver ih id data u

theorem goes_begin (hr : ∀ id data u, Goes (receive id data u)) (id : Nat) (data : Payload) :
    Goes (begin receive id data) := by
  refine goes_bind (goes_hook (fun _ => .enqueueRoot data) fun _ _ => rfl) fun _ => ?_
  refine goes_bind (goes_work id) fun out => ?_
  cases out with
  | none => exact goes_bind (goes_complete hr id) fun _ => goes_pure none
  | some out => exact goes_pure (some out)

theorem goes_drive (hr : ∀ id data u, Goes (receive id data u)) (inputs : List (Nat × Payload)) :
    Goes (drive receive inputs) := by
  refine goes_bind ?_ fun streams => goes_each (fun turn => ?_) _
  · induction inputs with
    | nil => exact goes_pure []
    | cons s rest ih =>
      refine goes_bind (goes_begin hr s.1 s.2) fun out => goes_bind ih fun others => ?_
      cases out with
      | none => exact goes_pure others
      | some out => exact goes_pure _
  · obtain ⟨id, _ | chunk⟩ := turn
    · exact goes_complete hr id
    · exact goes_emit hr id chunk

end Stages

/-! ## What steps keep -/

section Keeps

variable {r r' : Run W} {id : Nat} {n : Node W}

/-- What every step keeps is kept. -/
theorem Steps.keep {I : Run W → Prop} (h : Steps r r') (hr : I r)
    (hstep : ∀ r r', Step r r' → I r → I r') : I r' := by
  induction h with
  | refl => exact hr
  | tail _ h ih => exact hstep _ _ h ih

/-- A law of a node and what has happened there that nothing breaks. -/
structure Local (law : Node W → List Act → Prop) : Prop where
  call : ∀ {n acts} (hook : Hook) (w : W), law n acts →
    law (hook.call n w).2.1 (acts ++ [(hook.call n w).1])
  emit : ∀ {n acts} (chunk : Payload), law n acts → law n (acts ++ [.emit chunk])
  finalize : ∀ {n acts} (provider : Nat), law n acts →
    law { n with finalized := n.finalized.insert provider } acts

def acts (r : Run W) (id : Nat) : List Act := actsAt r.journal.reverse id

theorem acts_note (nodes : List (Node W)) (w : W) (journal : List JournalEntry) (m : Nat)
    (act : Act) : acts ⟨nodes, w, ⟨id, act⟩ :: journal⟩ m =
      actsAt journal.reverse m ++ if id = m then [act] else [] := by
  rw [acts, List.reverse_cons, actsAt_snoc]

/-- A law of one node holds at the end if it held at the beginning. -/
theorem Steps.local {law : Node W → List Act → Prop} (h : Steps r r') (hlaw : Local law)
    (hn : r.nodes[id]? = some n) (hlocal : law n (r.acts id)) :
    ∃ n', r'.nodes[id]? = some n' ∧ law n' (r'.acts id) := by
  refine h.keep (I := fun r => ∃ n, r.nodes[id]? = some n ∧ law n (r.acts id))
    ⟨n, hn, hlocal⟩ ?_
  rintro r r' hstep ⟨n, hn, hlocal⟩
  cases hstep with
  | @call hook _ m n' hm =>
    by_cases hid : m = id
    · subst hid
      rw [hn] at hm
      cases hm
      have hlt := (List.getElem?_eq_some_iff.mp hn).1
      refine ⟨_, List.getElem?_set_self hlt, ?_⟩
      rw [acts_note, if_pos rfl]
      exact hlaw.call hook _ hlocal
    · refine ⟨n, (List.getElem?_set_ne hid).trans hn, ?_⟩
      rw [acts_note, if_neg hid, List.append_nil]
      exact hlocal
  | emit _ m chunk =>
    refine ⟨n, hn, ?_⟩
    rw [acts_note]
    split
    · exact hlaw.emit chunk hlocal
    · rw [List.append_nil]
      exact hlocal
  | finalize _ provider listener =>
    rw [List.getElem?_modify, hn]
    refine ⟨_, rfl, ?_⟩
    split
    · exact hlaw.finalize provider hlocal
    · exact hlocal

/-- The node is of this component, and in this state of it. -/
structure Holds (n : Node W) (c : Component W) (s : c.State) : Prop where
  component : n.component = c
  state : HEq n.state s

theorem holds_of_fresh {c : Component W} (h : n.Fresh) (hc : n.component = c) :
    Holds n c c.start := by
  subst hc
  exact ⟨rfl, heq_of_eq h.state⟩

/-- Such a node is made of them. -/
theorem Holds.exists_eq {c : Component W} {s : c.State} (h : Holds n c s) :
    ∃ n₀ : Node W, n = { n₀ with component := c, state := s } := by
  obtain ⟨rfl, hstate⟩ := h
  cases hstate
  exact ⟨n, rfl⟩

theorem Steps.alike (h : Steps r r') (hn : r.nodes[id]? = some n) :
    ∃ n', r'.nodes[id]? = some n' ∧ Alike n n' ∧ n'.acquired = n.acquired := by
  have hlaw : Local fun n' _ => Alike n n' ∧ n'.acquired = n.acquired := ⟨?_, ?_, ?_⟩
  · exact h.local hlaw hn ⟨⟨rfl, rfl, rfl, rfl, rfl⟩, rfl⟩
  · rintro n' acts hook w ⟨⟨hkey, hcomponent, hneeds, hlisteners, hpruned⟩, hacquired⟩
    obtain ⟨⟨hkey', hcomponent', hneeds', hlisteners', hpruned'⟩, hacquired'⟩ := hook.alike n' w
    exact ⟨⟨hkey'.trans hkey, hcomponent'.trans hcomponent, hneeds'.trans hneeds,
      hlisteners'.trans hlisteners, hpruned'.trans hpruned⟩, hacquired'.trans hacquired⟩
  · exact fun _ h => h
  · exact fun _ ⟨⟨hkey, hcomponent, hneeds, hlisteners, hpruned⟩, hacquired⟩ =>
      ⟨⟨hkey, hcomponent, hneeds, hlisteners, hpruned⟩, hacquired⟩

end Keeps

end Run

/-! ## The calls of a node -/

/-- Whether it is a call of the component. -/
def Act.isCall : Act → Bool
  | .emit _ => false
  | _ => true

def callsAt (j : List JournalEntry) (id : Nat) : List Act := (actsAt j id).filter Act.isCall

/-- While the roots are driven all calls are work. -/
theorem Run.Steps.calls {r r' : Run W} (h : Steps r r') (m : Nat) :
    ∃ work, callsAt r'.journal.reverse m = callsAt r.journal.reverse m ++ work ∧
      workAt r'.journal.reverse m = workAt r.journal.reverse m ++ work := by
  refine h.keep (I := fun r' => ∃ work,
    callsAt r'.journal.reverse m = callsAt r.journal.reverse m ++ work ∧
      workAt r'.journal.reverse m = workAt r.journal.reverse m ++ work) ⟨[], by simp⟩ ?_
  rintro r₁ r₂ hstep ⟨work, hcalls, hwork⟩
  cases hstep with
  | call hook hn =>
    rename_i id n
    refine ⟨work ++ if id = m then [(hook.call n r₁.world).1] else [], ?_⟩
    have hiswork := hook.isWork n r₁.world
    have hiscall : (hook.call n r₁.world).1.isCall = true := by
      cases hook <;> rfl
    unfold callsAt workAt at *
    rw [List.reverse_cons, actsAt_snoc, List.filter_append, List.filter_append, hcalls, hwork]
    split <;> simp [hiswork, hiscall]
  | emit _ id chunk =>
    refine ⟨work, ?_⟩
    unfold callsAt workAt at *
    rw [List.reverse_cons, actsAt_snoc, List.filter_append, List.filter_append, hcalls, hwork]
    split <;> simp [Act.isCall, Act.isWork]
  | finalize => exact ⟨work, hcalls, hwork⟩

end FeatureGraph
