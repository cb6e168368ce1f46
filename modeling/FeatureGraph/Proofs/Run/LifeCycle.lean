-- The shapes that the calls of a node's component make between its acquiring
-- and its release. A node that has providers is called for one delivery after
-- another, and then at most once more, for its end. A root is called for its
-- input, and then for its end.
import FeatureGraph.Proofs.Lists
import FeatureGraph.Proofs.Run.Ledger

namespace FeatureGraph

/-- The node looks for something to work on, and works on it if there is enough. -/
inductive Attempt (finalized : Bool) : List Act → Prop
  | waits : Attempt finalized [.dequeue finalized none]
  | works (data : Payload) (result : Except ComponentError Output) :
      Attempt finalized [.dequeue finalized (some data), .transform data result]

/-- A delivery while a provider may still send: of data, or of the sign that one has ended. -/
inductive Delivery : List Act → Prop
  | data (input : Nat) (data : Payload) {acts : List Act} :
      Attempt false acts → Delivery (.enqueue input data :: acts)
  | sign {acts : List Act} : Attempt false acts → Delivery acts

inductive Deliveries : List Act → Prop
  | nil : Deliveries []
  | snoc {acts delivery : List Act} :
      Deliveries acts → Delivery delivery → Deliveries (acts ++ delivery)

inductive Closing : List Act → Prop
  | intro {acts : List Act} (result : Except ComponentError Output) :
      Attempt true acts → Closing (acts ++ [.lastChunk result])

/-- The calls of a node with providers, up to now or up to its end. -/
inductive Life : (ended : Bool) → List Act → Prop
  | running {acts : List Act} : Deliveries acts → Life false acts
  | closed {acts closing : List Act} :
      Deliveries acts → Closing closing → Life true (acts ++ closing)

/-- The calls of a root, up to now or up to its end. -/
inductive RootLife : (ended : Bool) → List Act → Prop
  | idle : RootLife false []
  | running (data : Payload) {acts : List Act} :
      Attempt true acts → RootLife false (.enqueue 0 data :: acts)
  | closed (data : Payload) {closing : List Act} :
      Closing closing → RootLife true (.enqueue 0 data :: closing)

/-- Calls that may be cut short at any point. -/
def CutShort (life : Bool → List Act → Prop) (acts : List Act) : Prop :=
  ∃ ended rest, life ended (acts ++ rest)

theorem CutShort.whole {life : Bool → List Act → Prop} {ended : Bool} {acts : List Act}
    (h : life ended acts) : CutShort life acts := ⟨ended, [], by simpa using h⟩

theorem Life.deliveries {acts : List Act} (h : Life false acts) : Deliveries acts := by
  cases h
  assumption

section Steps

variable {acts begun rest : List Act}

theorem Delivery.cut (h : Delivery (begun ++ rest)) (hacts : Deliveries acts) :
    CutShort Life (acts ++ begun) :=
  ⟨false, rest, by simpa using Life.running (hacts.snoc h)⟩

theorem Closing.cut (h : Closing (begun ++ rest)) (hacts : Deliveries acts) :
    CutShort Life (acts ++ begun) :=
  ⟨true, rest, by simpa using Life.closed hacts h⟩

theorem Attempt.closing (h : Attempt true acts) : Closing (acts ++ [.lastChunk (.ok [])]) :=
  .intro (.ok []) h

end Steps

/-! ## The life of a node by its place -/

/-- A root has another life than a node with providers. -/
def Wiring.life (net : Wiring) (id : Nat) : Bool → List Act → Prop :=
  match net.needs id with
  | [] => RootLife
  | _ :: _ => Life

theorem Wiring.life_root {net : Wiring} {id : Nat} (h : net.Root id) : net.life id = RootLife := by
  unfold life
  rw [h]

theorem Wiring.life_not_root {net : Wiring} {id : Nat} (h : ¬ net.Root id) :
    net.life id = Life := by
  unfold life
  split
  · contradiction
  · rfl

/-! ## What every life has in common -/

namespace Act

/-- The calls that close a life. -/
def isClosing : Act → Bool
  | .dequeue true _ | .lastChunk _ => true
  | _ => false

def isIntake : Act → Bool
  | .enqueue _ _ | .dequeue _ _ => true
  | _ => false

end Act

/-- How a life may end: not yet, with an attempt on all of the input, or with that and the last
call. -/
inductive Ending : List Act → Prop
  | none : Ending []
  | attempt {acts : List Act} : Attempt true acts → Ending acts
  | closing {acts : List Act} : Closing acts → Ending acts

theorem Attempt.early {acts : List Act} (h : Attempt false acts) :
    ∀ act ∈ acts, act.isClosing = false := by
  cases h <;> simp [Act.isClosing]

theorem Delivery.early {acts : List Act} (h : Delivery acts) :
    ∀ act ∈ acts, act.isClosing = false := by
  cases h with
  | data input data hattempt =>
    intro act hact
    rcases List.mem_cons.mp hact with rfl | hact
    · rfl
    · exact hattempt.early act hact
  | sign hattempt => exact hattempt.early

theorem Deliveries.early {acts : List Act} (h : Deliveries acts) :
    ∀ act ∈ acts, act.isClosing = false := by
  induction h with
  | nil => simp
  | snoc _ hdelivery ih =>
    intro act hact
    exact (List.mem_append.mp hact).elim (ih act) (hdelivery.early act)

/-- Whatever its place, a node is called for an end only in the end. -/
theorem Wiring.life_ending {net : Wiring} {id : Nat} {ended : Bool} {acts : List Act}
    (h : net.life id ended acts) : ∃ front back, acts = front ++ back ∧
      (∀ act ∈ front, act.isClosing = false) ∧ Ending back := by
  by_cases hroot : net.Root id
  · rw [Wiring.life_root hroot] at h
    cases h with
    | idle => exact ⟨[], [], rfl, by simp, .none⟩
    | running data hattempt =>
      exact ⟨[.enqueue 0 data], _, rfl, by simp [Act.isClosing], .attempt hattempt⟩
    | closed data hclosing =>
      exact ⟨[.enqueue 0 data], _, rfl, by simp [Act.isClosing], .closing hclosing⟩
  · rw [Wiring.life_not_root hroot] at h
    cases h with
    | running hacts => exact ⟨acts, [], by simp, hacts.early, .none⟩
    | closed hacts hclosing => exact ⟨_, _, rfl, hacts.early, .closing hclosing⟩

/-- What stands in the end and not before it stands in the end. -/
theorem exists_of_append_eq {front back before after : List Act} {act : Act} (p : Act → Bool)
    (h : front ++ back = before ++ act :: after) (hfront : ∀ a ∈ front, p a = false)
    (hact : p act = true) : ∃ middle, back = middle ++ act :: after := by
  rcases List.append_eq_append_iff.mp h with ⟨middle, -, hback⟩ | ⟨middle, hbefore, hrest⟩
  · exact ⟨middle, hback⟩
  · cases middle with
    | nil => exact ⟨[], hrest.symm⟩
    | cons a rest =>
      cases hrest
      have := hfront act (by simp [hbefore])
      rw [hact] at this
      cases this

/-- Nothing follows the last call. -/
theorem Ending.after_lastChunk {back middle after : List Act}
    {result : Except ComponentError Output} (h : Ending back)
    (heq : back = middle ++ .lastChunk result :: after) : after = [] := by
  have hattempt : ∀ {acts}, Attempt true acts → ∀ act ∈ acts, ∀ r, act ≠ .lastChunk r := by
    rintro acts (_ | _) <;> simp
  have hnot : ∀ {acts after}, Attempt true acts → acts ≠ middle ++ .lastChunk result :: after :=
    fun ha hacts => hattempt ha _ (hacts ▸ List.mem_append_cons_self) result rfl
  cases h with
  | none => simp at heq
  | attempt ha => exact absurd heq (hnot ha)
  | closing hc =>
    rcases hc with @⟨acts, r, ha⟩
    rcases snoc_eq_append heq with ⟨-, -, hafter⟩ | ⟨front, -, hacts⟩
    · exact hafter
    · exact absurd hacts (hnot ha)

/-- Nothing comes in after the attempt on all of the input. -/
theorem Ending.after_dequeue {back middle after : List Act} {got : Option Payload}
    (h : Ending back) (heq : back = middle ++ .dequeue true got :: after) :
    ∀ act ∈ after, act.isIntake = false := by
  have hattempt : ∀ {acts} tail, Attempt true acts → (∀ act ∈ tail, act.isIntake = false) →
      acts ++ tail = middle ++ .dequeue true got :: after →
      ∀ act ∈ after, act.isIntake = false := by
    rintro _ tail (_ | _) htail heq
    all_goals
      cases middle with
      | nil =>
        cases heq
        simpa [Act.isIntake] using htail
      | cons a rest =>
        have hmem : Act.dequeue true got ∈ rest ++ .dequeue true got :: after :=
          List.mem_append_cons_self
        simp only [List.cons_append, List.cons.injEq] at heq
        rw [← heq.2] at hmem
        simp only [List.nil_append, List.mem_cons, reduceCtorEq, false_or] at hmem
        have := htail _ hmem
        simp [Act.isIntake] at this
  cases h with
  | none => simp at heq
  | attempt ha => exact hattempt [] ha (by simp) (by simpa using heq)
  | closing hc =>
    obtain ⟨r, ha⟩ := hc
    exact hattempt _ ha (by simp [Act.isIntake]) heq

end FeatureGraph
