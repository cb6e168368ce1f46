-- The life of a node in a run. Every node that a run acquires is released
-- once, and between the two it lives one life: deliveries, and at most one
-- end. It is told that all its input has come only after that is so.
import FeatureGraph.Proofs.Run.Course

namespace FeatureGraph

variable {W : Type}

/-! ## Holding back -/

/-- Whether all input is said to have come. -/
def Act.isFinal : Act → Bool
  | .dequeue true _ => true
  | _ => false

theorem Act.isFinal_iff {act : Act} : act.isFinal = true ↔ ∃ got, act = .dequeue true got := by
  constructor
  · intro h
    unfold isFinal at h
    split at h
    · exact ⟨_, rfl⟩
    · cases h
  · rintro ⟨got, rfl⟩
    rfl

theorem countP_isFinal_acts (acts : List Act) :
    acts.countP Act.isFinal = (acts.filter Act.isWork).countP Act.isFinal := by
  rw [List.countP_filter]
  refine List.countP_congr fun act _ => ?_
  rw [Bool.and_eq_true, iff_self_and]
  intro hact
  obtain ⟨got, rfl⟩ := Act.isFinal_iff.mp hact
  rfl

/-- A component that counts how often its `dequeue` is called, and else does what it did. -/
def Component.counting (c : Component W) : Component W where
  State := c.State × Nat
  start := (c.start, 0)
  enqueue data input s cache w :=
    let (s', cache, w) := c.enqueue data input s.1 cache w
    ((s', s.2), cache, w)
  dequeue finalized s cache w :=
    let (got, s', cache, w) := c.dequeue finalized s.1 cache w
    (got, (s', s.2 + 1), cache, w)
  transform data s w :=
    let (result, s', w) := c.transform data s.1 w
    (result, (s', s.2), w)
  lastChunk s w :=
    let (result, s', w) := c.lastChunk s.1 w
    (result, (s', s.2), w)
  acquire s w :=
    let (result, s', w) := c.acquire s.1 w
    (result, (s', s.2), w)
  release s w :=
    let (result, s', w) := c.release s.1 w
    (result, (s', s.2), w)

/-- An aggregator lets a call of `dequeue` through only if all input is said to have come. -/
def HoldsBack (c : Component W) (n : Node W) (acts : List Act) : Prop :=
  ∃ s, Run.Holds n c.counting.aggregator (s, acts.countP Act.isFinal)

section HoldsBack

variable {c : Component W}

theorem holdsBack_local : Run.Local (HoldsBack c) := by
  refine ⟨?_, ?_, ?_⟩
  · rintro n acts hook w ⟨s, hholds⟩
    obtain ⟨n, rfl⟩ := hholds.exists_eq
    cases hook with
    | dequeue =>
      unfold HoldsBack
      rw [List.countP_append]
      simp only [Run.Hook.call, Node.dequeue, Component.aggregator]
      split
      · rename_i hflag
        rw [hflag]
        exact ⟨_, rfl, HEq.rfl⟩
      · rename_i hflag
        rw [Bool.not_eq_true] at hflag
        rw [hflag]
        exact ⟨s, rfl, HEq.rfl⟩
    | enqueueFrom source data | enqueueRoot data | transform data | lastChunk =>
      unfold HoldsBack
      rw [List.countP_append]
      exact ⟨_, rfl, HEq.rfl⟩
  · rintro n acts chunk ⟨s, h⟩
    unfold HoldsBack
    rw [List.countP_append]
    exact ⟨s, h⟩
  · rintro n acts provider ⟨s, hcomponent, hstate⟩
    exact ⟨s, hcomponent, hstate⟩

theorem holdsBack_opened {n n' : Node W} {acts : List Act} (h : Run.Opened n n' acts)
    (hfresh : n.Fresh) (hc : n.component = c.counting.aggregator) : HoldsBack c n' acts := by
  obtain ⟨n, rfl⟩ := (Run.holds_of_fresh hfresh hc).exists_eq
  cases h with
  | untouched => exact ⟨_, rfl, HEq.rfl⟩
  | tried w =>
    obtain ⟨acquired, heq⟩ := Run.acquire_eq _ w
    rw [heq]
    exact ⟨_, rfl, HEq.rfl⟩

theorem holdsBack_release {n : Node W} {acts : List Act} (h : HoldsBack c n acts) (w : W) :
    HoldsBack c (n.release w).2.1 acts := by
  obtain ⟨s, hholds⟩ := h
  obtain ⟨n, rfl⟩ := hholds.exists_eq
  exact ⟨_, rfl, HEq.rfl⟩

end HoldsBack

/-! ## The journal of a run -/

section Tail

variable {net : Wiring} {j ends : List JournalEntry} {m u : Nat}
  (h : ∀ e ∈ ends, e.act.isBracket = true)

include h

theorem silent_actsAt (m : Nat) : Silent (actsAt ends m) := by
  intro act hact
  obtain ⟨e, he, heq⟩ := List.mem_filterMap.mp hact
  split at heq
  · cases heq
    exact h e he
  · cases heq

theorem workAt_append : workAt (j ++ ends) m = workAt j m := by
  rw [workAt, actsAt_append, List.filter_append, (silent_actsAt h m).work, List.append_nil, workAt]

theorem sentBy_append : sentBy (j ++ ends) m = sentBy j m := by
  rw [sentBy, actsAt_append, List.filterMap_append, (silent_actsAt h m).sent, List.append_nil,
    sentBy]

theorem outputOf_append : outputOf (j ++ ends) m = outputOf j m := by
  rw [outputOf, actsAt_append, List.flatMap_append, (silent_actsAt h m).output, List.append_nil,
    outputOf]

theorem received_append : received net (j ++ ends) m u = received net j m u := by
  rw [received, receivedAt, actsAt_append, List.filterMap_append, (silent_actsAt h m).received,
    List.append_nil]
  rfl

/-- What is not work comes too late to break the order. -/
theorem Timely.append (htimely : Timely net j) : Timely net (j ++ ends) := by
  induction ends generalizing j with
  | nil => simpa using htimely
  | cons e rest ih =>
    rw [List.append_cons]
    refine ih (fun e he => h e (List.mem_cons_of_mem _ he)) (htimely.snoc fun got heq => ?_)
    have := h e List.mem_cons_self
    rw [heq] at this
    cases this

end Tail

namespace Graph

variable {g : Graph W}

/-- What happens in a run, in order. -/
def journal (g : Graph W) (inputs : Inputs) (world : W) : List JournalEntry :=
  (g.run inputs world).1.2.2

theorem run_missing {inputs : Inputs} (world : W)
    (h : ¬ (g.roots.all fun (key, _) => inputs.contains key) = true) :
    g.run inputs world =
      ((g, world, []), .error (.missingRootInputs (g.roots.map (·.1)) inputs.keys)) := if_neg h

theorem inputs_of_ok {inputs : Inputs} {world : W} (hok : (g.run inputs world).2 = .ok ()) :
    (g.roots.all fun (key, _) => inputs.contains key) = true := by
  by_contra hmissing
  rw [run_missing world hmissing] at hok
  cases hok

namespace Course

variable {world : W} {result : Except GraphError Unit} {all : Bool} {r₁ r₂ r₃ : Run W} {m : Nat}

theorem tail (h : g.Course world result all r₁ r₂ r₃) : ∃ ends : List JournalEntry,
    r₃.journal.reverse = r₂.journal.reverse ++ ends ∧ ∀ e ∈ ends, e.act.isBracket = true :=
  h.releases.journal

/-- What a run adds to the journal after its work is no work. -/
theorem journal_eq (h : g.Course world result all r₁ r₂ r₃) {inputs : Inputs}
    (hrun : (g.run inputs world).1 =
      ({ g with nodes := r₃.nodes }, r₃.world, r₃.journal.reverse)) :
    ∃ ends, g.journal inputs world = r₂.journal.reverse ++ ends ∧
      ∀ e ∈ ends, e.act.isBracket = true := by
  obtain ⟨ends, hends, hbracket⟩ := h.tail
  exact ⟨ends, by rw [journal, hrun, hends], hbracket⟩

/-- Between the acquiring and the releases a node does all its work. -/
theorem calls (h : g.Course world result all r₁ r₂ r₃) (m : Nat) :
    callsAt r₂.journal.reverse m = r₁.acts m ++ workAt r₂.journal.reverse m := by
  obtain ⟨work, hcalls, hwork⟩ := h.steps.calls m
  have hsilent := h.opens.silent m
  have hnone : workAt r₁.journal.reverse m = [] := hsilent.work
  have hall : callsAt r₁.journal.reverse m = r₁.acts m := by
    refine List.filter_eq_self.mpr fun act hact => ?_
    have := hsilent act hact
    cases act <;> simp_all [Act.isBracket, Act.isCall]
  rw [hcalls, hwork, hnone, hall, List.nil_append]

theorem node (h : g.Course world result all r₁ r₂ r₃) {n : Node W} (hn : g.nodes[m]? = some n) :
    ∃ n₁ n₂, r₁.nodes[m]? = some n₁ ∧ Run.Opened n n₁ (r₁.acts m) ∧ r₂.nodes[m]? = some n₂ ∧
      Run.Alike n₁ n₂ ∧ n₂.acquired = n₁.acquired := by
  obtain ⟨n₁, hn₁, hopened⟩ := h.opens.opened hn
  obtain ⟨n₂, hn₂, halike, hacquired⟩ := h.steps.alike hn₁
  exact ⟨n₁, n₂, hn₁, hopened, hn₂, halike, hacquired⟩

theorem released (h : g.Course world result all r₁ r₂ r₃) {n₂ : Node W}
    (hn₂ : r₂.nodes[m]? = some n₂) (hacquired : n₂.acquired = true) :
    ∃ w, r₃.nodes[m]? = some (n₂.release w).2.1 ∧
      r₃.acts m = r₂.acts m ++ [.release (n₂.release w).1] := by
  obtain ⟨n, w, hn, hnode, hacts⟩ := h.releases.released (Run.nodup_idsOf ..)
    (Run.mem_idsOf.mpr ⟨n₂, hn₂, hacquired⟩)
  rw [hn₂] at hn
  cases hn
  exact ⟨w, hnode, hacts⟩

theorem mem_acts (h : g.Course world result all r₁ r₂ r₃) {act : Act} (hact : act ∈ r₃.acts m)
    (hrelease : ∀ released, act ≠ .release released) : act ∈ r₂.acts m := by
  by_cases hids : m ∈ Run.idsOf r₂.nodes (·.acquired)
  · obtain ⟨n, w, -, -, hacts⟩ := h.releases.released (Run.nodup_idsOf ..) hids
    rw [hacts] at hact
    exact (List.mem_append.mp hact).resolve_right fun hlast =>
      hrelease _ (List.mem_singleton.mp hlast)
  · exact (h.releases.other hids).2 ▸ hact

theorem acts_of_acquire (h : g.Course world result all r₁ r₂ r₃)
    (hm : Act.acquire (.ok ()) ∈ r₃.acts m) : Act.acquire (.ok ()) ∈ r₁.acts m := by
  have hcalls : Act.acquire (.ok ()) ∈ callsAt r₂.journal.reverse m :=
    List.mem_filter.mpr ⟨h.mem_acts hm (by simp), rfl⟩
  rw [h.calls] at hcalls
  refine (List.mem_append.mp hcalls).resolve_right fun hwork => ?_
  have := (List.mem_filter.mp hwork).2
  cases this

/-- The calls of a node that was acquired: its acquiring, its work and its release. -/
theorem calls_of_acquire (h : g.Course world result all r₁ r₂ r₃) (hready : g.Ready)
    (hm : Act.acquire (.ok ()) ∈ r₃.acts m) :
    ∃ result, callsAt r₃.journal.reverse m =
      .acquire (.ok ()) :: workAt r₂.journal.reverse m ++ [.release result] := by
  have hm₁ := h.acts_of_acquire hm
  obtain ⟨n, hn, -⟩ := h.opens.live hm₁
  obtain ⟨n₁, n₂, -, hopened, hn₂, -, hacquired⟩ := h.node hn
  have hfresh := (hready.fresh n (List.mem_of_getElem? hn)).acquired
  rcases hopened.acquired hfresh with ⟨htrue, hacts⟩ | ⟨-, hacts | ⟨e, hacts⟩⟩
  · obtain ⟨w, -, hrelease⟩ := h.released hn₂ (hacquired.trans htrue)
    refine ⟨(n₂.release w).1, ?_⟩
    have hcalls := h.calls m
    rw [hacts] at hcalls
    unfold callsAt at hcalls ⊢
    rw [show actsAt r₃.journal.reverse m = r₃.acts m from rfl, hrelease, List.filter_append,
      show r₂.acts m = actsAt r₂.journal.reverse m from rfl, hcalls]
    rfl
  · simp [hacts] at hm₁
  · simp [hacts] at hm₁

/-- A component that counts the calls of its `dequeue`, held back by an aggregator, has counted
those calls after which all input is said to have come. -/
theorem heldBack (h : g.Course world result all r₁ r₂ r₃) (hready : g.Ready)
    (hm : Act.acquire (.ok ()) ∈ r₁.acts m) {n : Node W} {c : Component W}
    (hn : g.nodes[m]? = some n) (hc : n.component = (Component.counting c).aggregator) :
    ∃ n' s, r₃.nodes[m]? = some n' ∧ Run.Holds n' c.counting.aggregator
      (s, (workAt r₂.journal.reverse m).countP Act.isFinal) := by
  obtain ⟨n₁, n₂, hn₁, hopened, hn₂, -, hacquired⟩ := h.node hn
  have hfresh := hready.fresh n (List.mem_of_getElem? hn)
  obtain ⟨n₂', hn₂', hholds⟩ := h.steps.local holdsBack_local hn₁
    (holdsBack_opened hopened hfresh hc)
  rw [hn₂] at hn₂'
  cases hn₂'
  have htrue : n₁.acquired = true := by
    rcases hopened.acquired hfresh.acquired with ⟨htrue, -⟩ | ⟨-, hacts | ⟨e, hacts⟩⟩
    · exact htrue
    all_goals simp [hacts] at hm
  obtain ⟨w, hn₃, -⟩ := h.released hn₂ (hacquired.trans htrue)
  obtain ⟨s, hs⟩ := holdsBack_release hholds w
  exact ⟨_, s, hn₃, countP_isFinal_acts _ ▸ hs⟩

end Course

/-- All the phases of a run that answers, and what it leaves. -/
theorem course_of_ok (h : g.Ready) {inputs : Inputs} {world : W}
    (hok : (g.run inputs world).2 = .ok ()) :
    ∃ all r₁ r₂ r₃ ends, g.Course world (.ok ()) all r₁ r₂ r₃ ∧
      (g.run inputs world).1.2.1 = r₃.world ∧
      g.journal inputs world = r₂.journal.reverse ++ ends ∧
      ∀ e ∈ ends, e.act.isBracket = true := by
  obtain ⟨all, r₁, r₂, r₃, hcourse, hrun⟩ := course h world (inputs_of_ok hok)
  rw [hok] at hcourse
  obtain ⟨ends, hjournal, hbracket⟩ := hcourse.journal_eq hrun
  exact ⟨all, r₁, r₂, r₃, ends, hcourse, congrArg (fun left => left.2.1) hrun, hjournal, hbracket⟩

/-! ## The life of a node -/

/-- The life of a node that a run acquired: its calls between the acquiring and the release. -/
structure Lives (g : Graph W) (inputs : Inputs) (world : W) (m : Nat) (life : List Act) :
    Prop where
  bracket : ∃ result,
    callsAt (g.journal inputs world) m = .acquire (.ok ()) :: life ++ [.release result]
  /-- With providers: deliveries, and at most one end. A failure may cut them short. -/
  listener : ¬ (wiringOf g.nodes).Root m → CutShort Life life ∧
    ((g.run inputs world).2 = .ok () → ∃ ended, Life ended life)
  /-- Without providers: the input, and at most one end. -/
  root : (wiringOf g.nodes).Root m → CutShort RootLife life ∧
    ((g.run inputs world).2 = .ok () → RootLife true life)
  /-- Nothing follows the last call, so there is one at most. -/
  last : ∀ before after result, life = before ++ .lastChunk result :: after → after = []
  /-- Nothing is taken in or taken out once all input is said to have come, so that is said once
  at most. -/
  final : ∀ before after got, life = before ++ .dequeue true got :: after →
    ∀ act ∈ after, act.isIntake = false
  /-- It is said only when every provider has put out its last chunk and all it put out has
  come in, and when each has sent the node something. -/
  timely : ∀ before after got, g.journal inputs world = before ++ ⟨m, .dequeue true got⟩ :: after →
    ∀ u ∈ (wiringOf g.nodes).needs m, Sealed (wiringOf g.nodes) before u ∧
      received (wiringOf g.nodes) before m u ≠ []
  /-- An aggregator calls the `dequeue` of the component it holds back just then: a component
  that counts these calls has counted one at most. -/
  heldBack : ∀ n c, g.nodes[m]? = some n → n.component = (Component.counting c).aggregator →
    ∃ n' s, (g.run inputs world).1.1.nodes[m]? = some n' ∧
      Run.Holds n' c.counting.aggregator (s, life.countP Act.isFinal) ∧
      life.countP Act.isFinal ≤ 1

/-- What is followed by none of its kind is there once at most. -/
theorem countP_le_one {l : List Act} {p : Act → Bool}
    (h : ∀ before act after, l = before ++ act :: after → p act = true →
      ∀ a ∈ after, p a = false) : l.countP p ≤ 1 := by
  cases hfind : l.find? p with
  | none =>
    have hnone := List.find?_eq_none.mp hfind
    rw [List.countP_eq_zero.mpr hnone]
    exact Nat.zero_le 1
  | some act =>
    obtain ⟨hact, before, after, rfl, hbefore⟩ := List.find?_eq_some_iff_append.mp hfind
    have hafter := h before act after rfl hact
    have hnone : before.countP p = 0 := List.countP_eq_zero.mpr (by simpa using hbefore)
    have hnone' : after.countP p = 0 := List.countP_eq_zero.mpr (by simpa using hafter)
    have hone : (before ++ act :: after).countP p = 1 := by
      rw [List.countP_append, List.countP_cons_of_pos hact, hnone, hnone']
    exact Nat.le_of_eq hone

/-- Every node that a run acquires lives one life and is released, whatever the components and
the inputs are, and wherever the run may stop. -/
theorem acquired_nodes_live_once (h : g.Built) (inputs : Inputs) (world : W) {m : Nat}
    (hm : Act.acquire (.ok ()) ∈ actsAt (g.journal inputs world) m) :
    ∃ life, g.Lives inputs world m life := by
  by_cases hinputs : (g.roots.all fun (key, _) => inputs.contains key) = true
  · obtain ⟨all, r₁, r₂, r₃, hcourse, hrun⟩ := course h.ready world hinputs
    have hjournal : g.journal inputs world = r₃.journal.reverse := by
      rw [journal, hrun]
    rw [hjournal] at hm
    obtain ⟨ends, hends, hbracket⟩ := hcourse.tail
    have hopens := hcourse.acts_of_acquire hm
    have hsound := hcourse.sound
    have hlife := hsound.life m
    refine ⟨workAt r₂.journal.reverse m, ?_, fun hroot => ?_, fun hroot => ?_,
      fun before after result heq => (hsound.last heq).1,
      fun before after got heq => hsound.final heq, ?_, ?_⟩
    · rw [hjournal]
      exact hcourse.calls_of_acquire h.ready hm
    · refine ⟨Wiring.life_not_root hroot ▸ hlife, fun hdone => ?_⟩
      obtain ⟨phase, hrest, -⟩ := hcourse.atRest hdone
      exact ⟨_, (hrest.quiet m (Nat.zero_le m) hroot).life⟩
    · refine ⟨Wiring.life_root hroot ▸ hlife, fun hdone => ?_⟩
      obtain ⟨phase, hrest, hover, -⟩ := hcourse.atRest hdone
      obtain ⟨n, hn, hpruned⟩ := hcourse.opens.live hopens
      have hisRoot : n.isRoot = true := by
        simpa [Wiring.Root, wiringOf, hn, Node.isRoot] using hroot
      have hcalls := (hrest.roots m hroot).calls.life
      rw [hover m n hn hisRoot hpruned] at hcalls
      exact hcalls
    · have htimely := Timely.append hbracket hsound.timely
      intro before after got heq
      refine htimely before after m got ?_
      rw [← heq, hjournal, hends]
      rfl
    · intro n c hn hc
      obtain ⟨n', s, hn₃, hholds⟩ := hcourse.heldBack h.ready hopens hn hc
      refine ⟨n', s, ?_, hholds, ?_⟩
      · rw [hrun]
        exact hn₃
      · refine countP_le_one fun before act after heq hact a ha => ?_
        obtain ⟨got, rfl⟩ := Act.isFinal_iff.mp hact
        have := hsound.final heq a ha
        cases a <;> simp_all [Act.isIntake, Act.isFinal]
  · rw [journal, run_missing world hinputs] at hm
    exact absurd hm List.not_mem_nil

/-! ## A node that needs another twice -/

def passing : Component Unit := .stateless fun data => .ok [.ok data]

def lone : Graph Unit := ⟨"twice", [Node.new "a" passing []]⟩

/-- A root, and an aggregator that needs it twice. -/
def twice : Graph Unit :=
  ⟨"twice", [{ Node.new "a" passing [] with listeners := [1, 1] },
    Node.new "b" passing.counting.aggregator [0, 0]]⟩

theorem lone_built : lone.Built :=
  .add (.empty "twice") (show (Graph.empty "twice").add "a" passing [] = .ok (0, lone) from rfl)

theorem twice_built : twice.Built :=
  .add lone_built
    (show lone.add "b" passing.counting.aggregator [0, 0] = .ok (1, twice) from rfl)

def oneChunk : Inputs := Dictionary.empty.insert "a" (.literal "x")

def opens : Act → Bool
  | .acquire (.ok ()) => true
  | _ => false

theorem mem_of_any_opens {acts : List Act} (h : acts.any opens = true) :
    Act.acquire (.ok ()) ∈ acts := by
  obtain ⟨act, hmem, hopens⟩ := List.any_eq_true.mp h
  unfold opens at hopens
  split at hopens
  · exact hmem
  · cases hopens

theorem aggregator_lives_once :
    Act.acquire (.ok ()) ∈ actsAt (twice.journal oneChunk ()) 1 ∧
      ∃ life, twice.Lives oneChunk () 1 life := by
  have hopens : Act.acquire (.ok ()) ∈ actsAt (twice.journal oneChunk ()) 1 :=
    mem_of_any_opens (by decide +kernel)
  exact ⟨hopens, acquired_nodes_live_once twice_built oneChunk () hopens⟩

end Graph

end FeatureGraph
