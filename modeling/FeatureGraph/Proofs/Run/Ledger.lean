-- What a run has on record: its journal, and for each node who has ended and
-- who has been heard of. The record says nothing about the components and
-- their states, so a law of the record holds for all components. `Safe` is
-- the law of a stage: how it leaves the record if it comes to its end, and
-- what still holds of the record if it stops.
import FeatureGraph.Graph.Run
import FeatureGraph.Proofs.Graph.Wiring
import FeatureGraph.Proofs.Procedure
import Mathlib.Data.List.Basic

namespace FeatureGraph

variable {W : Type}

/-! ## Reading a journal -/

namespace Act

/-- The chunk that goes out. -/
def sent? : Act → Option Payload
  | .emit chunk => some chunk
  | _ => none

/-- The data that comes in at a position of the needs. -/
def received? (input : Nat) : Act → Option Payload
  | .enqueue i data => if i = input then some data else none
  | _ => none

/-- What a call of the component puts out. -/
def output : Act → Output
  | .transform _ (.ok out) => out
  | .lastChunk (.ok out) => out
  | _ => []

/-- Whether it is a call of the component between its acquiring and its release. -/
def isWork : Act → Bool
  | .enqueue _ _ | .dequeue _ _ | .transform _ _ | .lastChunk _ => true
  | .acquire _ | .emit _ | .release _ => false

/-- Whether it is the acquiring or the release of a node. -/
def isBracket : Act → Bool
  | .acquire _ | .release _ => true
  | _ => false

/-- Whether the node's work failed. -/
def failed : Act → Bool
  | .transform _ (.error _) | .lastChunk (.error _) => true
  | _ => false

end Act

/-- What happened at a node, in order. -/
def actsAt (j : List JournalEntry) (id : Nat) : List Act :=
  j.filterMap fun e => if e.node = id then some e.act else none

/-- The chunks that a node sent, in order. -/
def sentBy (j : List JournalEntry) (id : Nat) : List Payload := (actsAt j id).filterMap Act.sent?

/-- The data that a node took in at a position of its needs, in order. -/
def receivedAt (j : List JournalEntry) (id input : Nat) : List Payload :=
  (actsAt j id).filterMap (Act.received? input)

/-- All that the calls of a node's component put out. -/
def outputOf (j : List JournalEntry) (id : Nat) : Output := (actsAt j id).flatMap Act.output

/-- The calls of a node's component between its acquiring and its release. -/
def workAt (j : List JournalEntry) (id : Nat) : List Act := (actsAt j id).filter Act.isWork

section Journal

variable (j k : List JournalEntry) (id m input : Nat) (act : Act)

theorem actsAt_append : actsAt (j ++ k) m = actsAt j m ++ actsAt k m :=
  List.filterMap_append

@[simp] theorem actsAt_snoc :
    actsAt (j ++ [⟨id, act⟩]) m = actsAt j m ++ if id = m then [act] else [] := by
  rw [actsAt_append]
  congr 1
  by_cases h : id = m <;> simp [actsAt, h]

@[simp] theorem sentBy_snoc :
    sentBy (j ++ [⟨id, act⟩]) m = sentBy j m ++ if id = m then act.sent?.toList else [] := by
  by_cases h : id = m
  · cases hact : act.sent? <;> simp [sentBy, h, hact]
  · simp [sentBy, h]

@[simp] theorem receivedAt_snoc : receivedAt (j ++ [⟨id, act⟩]) m input =
    receivedAt j m input ++ if id = m then (act.received? input).toList else [] := by
  by_cases h : id = m
  · cases hact : act.received? input <;> simp [receivedAt, h, hact]
  · simp [receivedAt, h]

@[simp] theorem outputOf_snoc :
    outputOf (j ++ [⟨id, act⟩]) m = outputOf j m ++ if id = m then act.output else [] := by
  by_cases h : id = m <;> simp [outputOf, h]

@[simp] theorem workAt_snoc : workAt (j ++ [⟨id, act⟩]) m =
    workAt j m ++ if id = m ∧ act.isWork = true then [act] else [] := by
  by_cases h : id = m
  · cases hact : act.isWork <;> simp [workAt, h, hact]
  · simp [workAt, h]

end Journal

/-! ## The record -/

/-- What a run has on record. -/
structure Ledger where
  /-- What has happened, in order. -/
  journal : List JournalEntry
  /-- Whether a node has ended. -/
  ended : Nat → Bool
  /-- The providers of a node that it knows to have ended. -/
  finalized : Nat → List Nat
  /-- The providers of a node that have sent it something. -/
  enqueued : Nat → List Nat

namespace Ledger

def record (L : Ledger) (id : Nat) (act : Act) : Ledger :=
  { L with journal := L.journal ++ [⟨id, act⟩] }

/-- A node has heard from a provider. -/
def hear (L : Ledger) (id source : Nat) : Ledger :=
  { L with enqueued := fun m => if m = id then (L.enqueued m).insert source else L.enqueued m }

/-- A node learns that a provider has ended. -/
def close (L : Ledger) (provider listener : Nat) : Ledger :=
  { L with
    finalized := fun m => if m = listener then (L.finalized m).insert provider else L.finalized m }

def finish (L : Ledger) (id : Nat) : Ledger :=
  { L with ended := fun m => if m = id then true else L.ended m }

/-- What happens at a node, and the provider that it hears from by it. -/
def enter (L : Ledger) (id : Nat) (act : Act) (source : Option Nat) : Ledger :=
  { L.record id act with
    enqueued := fun m =>
      match source with
      | some u => if m = id then (L.enqueued m).insert u else L.enqueued m
      | none => L.enqueued m }

theorem mem_enqueued_enter {L : Ledger} {id m u : Nat} {act : Act} {source : Option Nat} :
    u ∈ (L.enter id act source).enqueued m ↔ (id = m ∧ source = some u) ∨ u ∈ L.enqueued m := by
  cases source with
  | none => simp [enter]
  | some v =>
    by_cases hm : m = id
    · simp [enter, hm, eq_comm]
    · simp [enter, hm, Ne.symm hm]

section Record

variable (L : Ledger) (id m input source : Nat) (act : Act)

@[simp] theorem enter_journal (heard : Option Nat) :
    (L.enter id act heard).journal = (L.record id act).journal := rfl

@[simp] theorem actsAt_record : actsAt (L.record id act).journal m =
    actsAt L.journal m ++ if id = m then [act] else [] := actsAt_snoc ..

@[simp] theorem sentBy_record : sentBy (L.record id act).journal m =
    sentBy L.journal m ++ if id = m then act.sent?.toList else [] := sentBy_snoc ..

@[simp] theorem receivedAt_record : receivedAt (L.record id act).journal m input =
    receivedAt L.journal m input ++ if id = m then (act.received? input).toList else [] :=
  receivedAt_snoc ..

@[simp] theorem outputOf_record : outputOf (L.record id act).journal m =
    outputOf L.journal m ++ if id = m then act.output else [] := outputOf_snoc ..

@[simp] theorem workAt_record : workAt (L.record id act).journal m =
    workAt L.journal m ++ if id = m ∧ act.isWork = true then [act] else [] := workAt_snoc ..

@[simp] theorem hear_journal : (L.hear id source).journal = L.journal := rfl

@[simp] theorem close_journal : (L.close id m).journal = L.journal := rfl

@[simp] theorem finish_journal : (L.finish id).journal = L.journal := rfl

end Record

/-- A call of a node has failed, or it has put out a failure. -/
def Failing (L : Ledger) : Prop :=
  ∃ m, (∃ act ∈ actsAt L.journal m, act.failed = true) ∨ ∃ e, .error e ∈ outputOf L.journal m

/-- Whether a node knows that all its providers have ended, and has heard from all of them. -/
def isFinalized (L : Ledger) (net : Wiring) (id : Nat) : Bool :=
  (net.needs id).eraseDups.length ≤ (L.finalized id).length &&
    (net.needs id).eraseDups.length ≤ (L.enqueued id).length

end Ledger

namespace Run

def ledger (r : Run W) : Ledger where
  journal := r.journal.reverse
  ended id := (r.nodes[id]?.map (·.completed)).getD false
  finalized id := (r.nodes[id]?.map (·.finalized)).getD []
  enqueued id := (r.nodes[id]?.map (·.enqueued)).getD []

/-! ## Laws of stages -/

/-- From every run with this wiring and this record, the stage leaves the record as `good` says,
or stops with the record as `bad` says. -/
def Safe {α : Type} (net : Wiring) (bad : Ledger → Prop) (p : Stage W α) (L : Ledger)
    (good : α → Ledger → Prop) : Prop :=
  ∀ r : Run W, wiringOf r.nodes = net → r.ledger = L →
    p.Ensures r (fun a r => wiringOf r.nodes = net ∧ good a r.ledger)
      (fun r => wiringOf r.nodes = net ∧ bad r.ledger)

section Rules

variable {α β ι : Type} {net : Wiring} {bad : Ledger → Prop} {L : Ledger} {id : Nat}

theorem Safe.mono {p : Stage W α} {good good' : α → Ledger → Prop} (h : Safe net bad p L good)
    (hgood : ∀ a L, good a L → good' a L) : Safe net bad p L good' := fun r hnet hL =>
  (h r hnet hL).mono (fun _ _ h => ⟨h.1, hgood _ _ h.2⟩) (fun _ h => h)

theorem safe_bind {p : Stage W α} {f : α → Stage W β} {good : β → Ledger → Prop}
    (h : Safe net bad p L fun a L => Safe net bad (f a) L good) :
    Safe net bad (p >>= f) L good := fun r hnet hL =>
  Procedure.ensures_bind <|
    (h r hnet hL).mono (fun _ r h => h.2 r h.1 rfl) (fun _ h => h)

theorem safe_pure {a : α} {good : α → Ledger → Prop} (h : good a L) :
    Safe net bad (pure a : Stage W α) L good := fun _ hnet hL =>
  Procedure.ensures_pure ⟨hnet, hL ▸ h⟩

theorem safe_stop {cause : ComponentError} {good : α → Ledger → Prop} (h : bad L) :
    Safe net bad (stop id cause : Stage W α) L good := fun _ hnet hL => ⟨hnet, hL ▸ h⟩

theorem safe_demand {result : Except ComponentError α} {good : α → Ledger → Prop}
    (hok : ∀ a, result = .ok a → good a L) (herror : ∀ e, result = .error e → bad L) :
    Safe net bad (demand id result : Stage W α) L good := by
  cases result with
  | ok a => exact safe_pure (hok a rfl)
  | error e => exact safe_stop (herror e rfl)

theorem safe_each {ι : Type} {f : ι → Stage W Unit} {I : List ι → Ledger → Prop}
    (step : ∀ x rest L, I (x :: rest) L → Safe net bad (f x) L fun _ L => I rest L)
    (xs : List ι) (h : I xs L) :
    Safe net bad (Procedure.each f xs) L fun _ L => I [] L := fun _ hnet hL =>
  Procedure.ensures_each (I := fun xs (r : Run W) => wiringOf r.nodes = net ∧ I xs r.ledger)
    (fun x rest r h => step x rest r.ledger h.2 r h.1 rfl) xs ⟨hnet, hL ▸ h⟩

theorem safe_note {act : Act} {good : Unit → Ledger → Prop} (h : good () (L.record id act)) :
    Safe net bad (note id act : Stage W Unit) L good := fun r hnet hL => by
  refine Procedure.ensures_change ⟨hnet, ?_⟩
  subst hL
  simpa [ledger, Ledger.record] using h

theorem safe_listeners {good : List Nat → Ledger → Prop} (h : good (net.listeners id) L) :
    Safe net bad (look id [] (·.listeners) : Stage W (List Nat)) L good := fun r hnet hL => by
  subst hnet hL
  exact Procedure.ensures_view ⟨rfl, h⟩

theorem safe_ended {good : Bool → Ledger → Prop} (hid : id < net.size)
    (h : good (L.ended id) L) :
    Safe net bad (look id true (·.completed) : Stage W Bool) L good := fun r hnet hL => by
  subst hnet hL
  refine Procedure.ensures_view ⟨rfl, ?_⟩
  obtain ⟨n, hn⟩ : ∃ n, r.nodes[id]? = some n := ⟨_, List.getElem?_eq_getElem hid⟩
  simpa [ledger, hn] using h

theorem safe_closed {good : Bool → Ledger → Prop} (hid : id < net.size)
    (h : good (net.pruned id || L.ended id) L) :
    Safe net bad (look id true fun n => n.pruned || n.completed : Stage W Bool) L good :=
    fun r hnet hL => by
  subst hnet hL
  refine Procedure.ensures_view ⟨rfl, ?_⟩
  obtain ⟨n, hn⟩ : ∃ n, r.nodes[id]? = some n := ⟨_, List.getElem?_eq_getElem hid⟩
  simpa [ledger, wiringOf, hn] using h

theorem safe_isFinalized {good : Bool → Ledger → Prop} (hid : id < net.size)
    (h : good (L.isFinalized net id) L) :
    Safe net bad (look id false (·.isFinalized) : Stage W Bool) L good := fun r hnet hL => by
  subst hnet hL
  refine Procedure.ensures_view ⟨rfl, ?_⟩
  obtain ⟨n, hn⟩ : ∃ n, r.nodes[id]? = some n := ⟨_, List.getElem?_eq_getElem hid⟩
  have heq : n.isFinalized = r.ledger.isFinalized (wiringOf r.nodes) id := by
    simp only [ledger, wiringOf, Ledger.isFinalized, Node.isFinalized, Node.dependencyCount, hn]
    rfl
  rw [hn, Option.map_some, Option.getD_some, heq]
  exact h

theorem safe_finalize {listener : Nat} {good : Unit → Ledger → Prop} (hl : listener < net.size)
    (h : good () (L.close id listener)) :
    Safe net bad (finalize id listener : Stage W Unit) L good := fun r hnet hL => by
  subst hnet hL
  obtain ⟨n, hn⟩ : ∃ n, r.nodes[listener]? = some n := ⟨_, List.getElem?_eq_getElem hl⟩
  have heq : r.ledger.close id listener = ledger { r with
      nodes := r.nodes.modify listener fun n =>
        { n with finalized := n.finalized.insert id } } := by
    simp only [ledger, Ledger.close, List.getElem?_modify, Ledger.mk.injEq, true_and]
    refine ⟨?_, ?_, ?_⟩ <;> funext u <;> grind
  refine Procedure.ensures_change ⟨?_, heq ▸ h⟩
  simp only [wiringOf, List.length_modify, List.getElem?_modify, Wiring.mk.injEq]
  refine ⟨trivial, ?_, ?_, ?_⟩ <;> funext u <;> grind

end Rules

/-! ## Laws of the hooks -/

section Hooks

variable {net : Wiring} {bad : Ledger → Prop} {L : Ledger} {id : Nat}

/-- A node as the record shows it. -/
structure Shown (L : Ledger) (net : Wiring) (id : Nat) (n : Node W) : Prop where
  needs : net.needs id = n.needs
  ended : L.ended id = n.completed
  finalized : L.finalized id = n.finalized
  enqueued : L.enqueued id = n.enqueued

/-- The record with another node at a number. -/
def reshow (L : Ledger) (id : Nat) (n : Node W) : Ledger where
  journal := L.journal
  ended m := if m = id then n.completed else L.ended m
  finalized m := if m = id then n.finalized else L.finalized m
  enqueued m := if m = id then n.enqueued else L.enqueued m

/-- How a node may change at a call: only in its state and in what the record shows. -/
structure Alike (n n' : Node W) : Prop where
  key : n'.key = n.key
  component : n'.component = n.component
  needs : n'.needs = n.needs
  listeners : n'.listeners = n.listeners
  pruned : n'.pruned = n.pruned

theorem wiringOf_set {nodes : List (Node W)} {n n' : Node W} (hn : nodes[id]? = some n)
    (h : Alike n n') : wiringOf (nodes.set id n') = wiringOf nodes := by
  obtain ⟨-, -, hneeds, hlisteners, hpruned⟩ := h
  simp only [wiringOf, List.length_set, List.getElem?_set, Wiring.mk.injEq]
  refine ⟨trivial, ?_, ?_, ?_⟩ <;> funext u <;> grind

theorem ledger_set {r : Run W} {n' : Node W} {w : W} {act : Act} (hid : id < r.nodes.length) :
    ledger ⟨r.nodes.set id n', w, ⟨id, act⟩ :: r.journal⟩ =
      reshow (r.ledger.record id act) id n' := by
  simp only [ledger, reshow, Ledger.record, List.reverse_cons, List.getElem?_set, Ledger.mk.injEq,
    true_and]
  refine ⟨?_, ?_, ?_⟩ <;> funext u <;> grind

theorem safe_hook {α : Type} {absent : α} {call : Node W → W → α × Node W × W}
    {act : Node W → α → Act} {good : α → Ledger → Prop} (hid : id < net.size)
    (halike : ∀ n w, Alike n (call n w).2.1)
    (h : ∀ (n : Node W) w, Shown L net id n →
      good (call n w).1 (reshow (L.record id (act n (call n w).1)) id (call n w).2.1)) :
    Safe net bad (hook id absent call act) L good := fun r hnet hL => by
  subst hnet hL
  obtain ⟨n, hn⟩ : ∃ n, r.nodes[id]? = some n := ⟨_, List.getElem?_eq_getElem hid⟩
  have hshown : Shown r.ledger (wiringOf r.nodes) id n := by
    constructor <;> simp [ledger, wiringOf, hn]
  have hrun : hook id absent call act r = (⟨r.nodes.set id (call n r.world).2.1,
      (call n r.world).2.2, ⟨id, act n (call n r.world).1⟩ :: r.journal⟩,
      .ok (call n r.world).1) := by
    simp [hook, hn]
  rw [Procedure.Ensures, hrun]
  refine ⟨wiringOf_set hn (halike n r.world), ?_⟩
  rw [ledger_set hid]
  exact h n r.world hshown

theorem reshow_self {n : Node W} (h : Shown L net id n) : reshow L id n = L := by
  obtain ⟨-, hended, hfinalized, henqueued⟩ := h
  obtain ⟨journal, ended, finalized, enqueued⟩ := L
  simp only [reshow, Ledger.mk.injEq, true_and]
  refine ⟨?_, ?_, ?_⟩ <;> funext u <;> grind

theorem reshow_record {n : Node W} {act : Act} (h : Shown L net id n) :
    reshow (L.record id act) id n = L.record id act := by
  have hrecord : Shown (L.record id act) net id n := ⟨h.needs, h.ended, h.finalized, h.enqueued⟩
  exact reshow_self hrecord

theorem safe_enqueueFrom {source : Nat} {data : Payload} {good : Unit → Ledger → Prop}
    (hid : id < net.size)
    (h : good () ((L.record id (.enqueue ((net.needs id).idxOf source) data)).hear id source)) :
    Safe net bad (hook id () (Node.enqueueFrom source data) fun n _ =>
      .enqueue (n.inputOf source) data : Stage W Unit) L good := by
  refine safe_hook hid (fun n w => ⟨rfl, rfl, rfl, rfl, rfl⟩) fun n w hn => ?_
  have heq : reshow (L.record id (.enqueue ((net.needs id).idxOf source) data)) id
      (n.enqueueFrom source data w).2.1 =
      (L.record id (.enqueue ((net.needs id).idxOf source) data)).hear id source := by
    obtain ⟨-, hended, hfinalized, henqueued⟩ := hn
    simp only [reshow, Ledger.record, Ledger.hear, Node.enqueueFrom, Ledger.mk.injEq, true_and]
    refine ⟨?_, ?_, ?_⟩ <;> funext u <;> grind
  rw [← heq, hn.needs] at h
  exact h

theorem safe_enqueueRoot {data : Payload} {good : Unit → Ledger → Prop} (hid : id < net.size)
    (h : good () (L.record id (.enqueue 0 data))) :
    Safe net bad (hook id () (Node.enqueueRoot data) fun _ _ =>
      .enqueue 0 data : Stage W Unit) L good := by
  refine safe_hook hid (fun n w => ⟨rfl, rfl, rfl, rfl, rfl⟩) fun n w hn => ?_
  rw [reshow_record (n := (n.enqueueRoot data w).2.1) ⟨hn.1, hn.2, hn.3, hn.4⟩]
  exact h

theorem safe_dequeue {good : Option Payload → Ledger → Prop} (hid : id < net.size)
    (h : ∀ got, good got (L.record id (.dequeue (L.isFinalized net id) got))) :
    Safe net bad (hook id none Node.dequeue fun n got =>
      .dequeue n.isFinalized got : Stage W (Option Payload)) L good := by
  refine safe_hook hid (fun n w => ⟨rfl, rfl, rfl, rfl, rfl⟩) fun n w hn => ?_
  have heq : n.isFinalized = L.isFinalized net id := by
    simp only [Ledger.isFinalized, Node.isFinalized, Node.dependencyCount, hn.needs, hn.finalized,
      hn.enqueued]
    rfl
  rw [heq, reshow_record (n := (n.dequeue w).2.1) ⟨hn.1, hn.2, hn.3, hn.4⟩]
  exact h _

theorem safe_transform {data : Payload} {good : Except ComponentError Output → Ledger → Prop}
    (hid : id < net.size) (h : ∀ result, good result (L.record id (.transform data result))) :
    Safe net bad (hook id (.ok []) (Node.transform data) fun _ result =>
      .transform data result : Stage W (Except ComponentError Output)) L good := by
  refine safe_hook hid (fun n w => ⟨rfl, rfl, rfl, rfl, rfl⟩) fun n w hn => ?_
  rw [reshow_record (n := (n.transform data w).2.1) ⟨hn.1, hn.2, hn.3, hn.4⟩]
  exact h _

theorem safe_lastChunk {good : Except ComponentError Output → Ledger → Prop}
    (hid : id < net.size)
    (h : ∀ result, good result ((L.record id (.lastChunk result)).finish id)) :
    Safe net bad (hook id (.ok []) Node.lastChunk fun _ result =>
      .lastChunk result : Stage W (Except ComponentError Output)) L good := by
  refine safe_hook hid (fun n w => ⟨rfl, rfl, rfl, rfl, rfl⟩) fun n w hn => ?_
  have heq : reshow (L.record id (.lastChunk (n.lastChunk w).1)) id (n.lastChunk w).2.1 =
      (L.record id (.lastChunk (n.lastChunk w).1)).finish id := by
    obtain ⟨-, -, hfinalized, henqueued⟩ := hn
    simp only [reshow, Ledger.record, Ledger.finish, Node.lastChunk, Ledger.mk.injEq, true_and]
    refine ⟨?_, ?_⟩ <;> funext u <;> grind
  rw [heq]
  exact h _

end Hooks

end Run

end FeatureGraph
