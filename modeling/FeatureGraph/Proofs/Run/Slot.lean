-- The one place that a node has for a chunk. A node that takes in and takes
-- out as nodes do by default works on every chunk at once, so its place is
-- free for the next.
import FeatureGraph.Proofs.Run.Course

namespace FeatureGraph

variable {W : Type}

/-! ## One place for a chunk -/

/-- A component that leaves taking in and taking out to the cache. -/
structure Component.Plain (c : Component W) : Prop where
  enqueue : ∀ data input s cache w, c.enqueue data input s cache w = (s, cache.replace data, w)
  dequeue : ∀ finalized s cache w,
    c.dequeue finalized s cache w = (cache.take.1, s, cache.take.2, w)

/-- What a call leaves in the one place of a cache. -/
def Act.keep (kept : Option Payload) : Act → Option Payload
  | .enqueue _ data => some data
  | .dequeue _ _ => none
  | _ => kept

/-- What these calls leave in the one place of a cache. -/
def keptAfter (acts : List Act) : Option Payload := acts.foldl Act.keep none

/-- Every chunk that was taken out is the one that was kept. -/
def Honest (acts : List Act) : Prop :=
  ∀ before finalized got after, acts = before ++ .dequeue finalized got :: after →
    got = keptAfter before

theorem keptAfter_append (acts rest : List Act) :
    keptAfter (acts ++ rest) = rest.foldl Act.keep (keptAfter acts) := List.foldl_append

theorem Honest.left {acts rest : List Act} (h : Honest (acts ++ rest)) : Honest acts := by
  intro before finalized got after heq
  refine h before finalized got (after ++ rest) ?_
  rw [heq]
  simp

theorem Honest.snoc {acts : List Act} {act : Act} (h : Honest acts)
    (hact : ∀ finalized got, act = .dequeue finalized got → got = keptAfter acts) :
    Honest (acts ++ [act]) := by
  intro before finalized got after heq
  rcases snoc_eq_append heq with ⟨rfl, hlast, -⟩ | ⟨front, -, hfront⟩
  · exact hact finalized got hlast.symm
  · exact h before finalized got front hfront

/-- What a node with a plain component keeps is what its calls say. -/
def Keeps (n : Node W) (acts : List Act) : Prop :=
  n.component.Plain ∧ n.cache.pending = keptAfter (acts.filter Act.isWork) ∧
    Honest (acts.filter Act.isWork)

theorem keeps_local : Run.Local (Keeps (W := W)) := by
  refine ⟨?_, ?_, ?_⟩
  · rintro n acts hook w ⟨hplain, hcache, hhonest⟩
    have hfilter : (acts ++ [(hook.call n w).1]).filter Act.isWork =
        acts.filter Act.isWork ++ [(hook.call n w).1] := by
      rw [List.filter_append, List.filter_singleton, hook.isWork]
      rfl
    rw [Keeps, hfilter, keptAfter_append, ← hcache]
    refine ⟨(hook.alike n w).1.component ▸ hplain, ?_, hhonest.snoc fun finalized got heq => ?_⟩
    · cases hook <;> simp [Run.Hook.call, Node.enqueueFrom, Node.enqueueRoot, Node.dequeue,
        Node.transform, Node.lastChunk, hplain.enqueue, hplain.dequeue, Act.keep, Cache.replace,
        Cache.take, Cache.empty]
    · cases hook with
      | dequeue =>
        simp only [Run.Hook.call, Node.dequeue, hplain.dequeue, Act.dequeue.injEq] at heq
        rw [← heq.2, Cache.take, hcache]
      | enqueueFrom | enqueueRoot | transform | lastChunk => cases heq
  · rintro n acts chunk h
    simpa [Keeps, Act.isWork] using h
  · rintro n acts provider ⟨hplain, hcache, hhonest⟩
    exact ⟨hplain, hcache, hhonest⟩

/-! ## Chunk by chunk -/

/-- The data that comes in, from wherever. -/
def Act.taken? : Act → Option Payload
  | .enqueue _ data => some data
  | _ => none

/-- The data that is turned into chunks. -/
def Act.worked? : Act → Option Payload
  | .transform data _ => some data
  | _ => none

/-- All data that a node took in, in order. -/
def takenAt (j : List JournalEntry) (id : Nat) : List Payload :=
  (actsAt j id).filterMap Act.taken?

/-- All data that a node turned into chunks, in order. -/
def workedAt (j : List JournalEntry) (id : Nat) : List Payload :=
  (actsAt j id).filterMap Act.worked?

theorem takenAt_eq (j : List JournalEntry) (id : Nat) :
    takenAt j id = (workAt j id).filterMap Act.taken? := by
  rw [takenAt, workAt, List.filterMap_filter]
  exact List.filterMap_congr fun act _ => by cases act <;> rfl

theorem workedAt_eq (j : List JournalEntry) (id : Nat) :
    workedAt j id = (workAt j id).filterMap Act.worked? := by
  rw [workedAt, workAt, List.filterMap_filter]
  exact List.filterMap_congr fun act _ => by cases act <;> rfl

/-- Whenever data comes in the one place is free, and the node works on the data at once. -/
def Prompt (acts : List Act) : Prop :=
  ∀ before input data after, acts = before ++ .enqueue input data :: after →
    keptAfter before = none ∧ ∃ finalized result rest,
      after = .dequeue finalized (some data) :: .transform data result :: rest

/-- A plain node that is between two deliveries. -/
structure Tidy (acts : List Act) : Prop where
  free : keptAfter acts = none
  worked : acts.filterMap Act.worked? = acts.filterMap Act.taken?
  prompt : Prompt acts

theorem Tidy.nil : Tidy [] := ⟨rfl, rfl, fun before _ _ _ h => by cases before <;> cases h⟩

/-- An attempt on what was kept: it works on that, or there was nothing. -/
theorem Attempt.of_honest {acts attempt : List Act} {finalized : Bool}
    (h : Attempt finalized attempt) (hhonest : Honest (acts ++ attempt)) :
    match keptAfter acts with
    | none => attempt = [.dequeue finalized none]
    | some data =>
      ∃ result, attempt = [.dequeue finalized (some data), .transform data result] := by
  cases h with
  | waits =>
    rw [← hhonest acts finalized none [] rfl]
  | works data result =>
    rw [← hhonest acts finalized (some data) [.transform data result] rfl]
    exact ⟨result, rfl⟩

theorem Prompt.append {acts rest : List Act} (h : Prompt acts)
    (hrest : ∀ before input data after, rest = before ++ .enqueue input data :: after →
      keptAfter (acts ++ before) = none ∧ ∃ finalized result tail,
        after = .dequeue finalized (some data) :: .transform data result :: tail) :
    Prompt (acts ++ rest) := by
  intro before input data after heq
  rcases List.append_eq_append_iff.mp heq with ⟨middle, rfl, hmiddle⟩ | ⟨middle, rfl, hmiddle⟩
  · exact hrest middle input data after hmiddle
  · cases middle with
    | nil => simpa using hrest [] input data after hmiddle.symm
    | cons act tail =>
      obtain ⟨rfl, rfl⟩ := List.cons.inj hmiddle
      obtain ⟨hfree, finalized, result, last, rfl⟩ := h before input data tail rfl
      exact ⟨hfree, finalized, result, last ++ rest, rfl⟩

theorem Tidy.waits {acts : List Act} (h : Tidy acts) (finalized : Bool) :
    Tidy (acts ++ [.dequeue finalized none]) := by
  refine ⟨by simp [keptAfter_append, Act.keep], ?_, h.prompt.append fun before _ _ _ heq => ?_⟩
  · rw [List.filterMap_append, List.filterMap_append, h.worked]
    rfl
  · rcases before with _ | ⟨_, _ | _⟩ <;> cases heq

theorem Tidy.takes {acts : List Act} (h : Tidy acts) (input : Nat) (data : Payload)
    (finalized : Bool) (result : Except ComponentError Output) :
    Tidy (acts ++
      [.enqueue input data, .dequeue finalized (some data), .transform data result]) := by
  refine ⟨by simp [keptAfter_append, Act.keep], ?_, h.prompt.append fun before _ _ _ heq => ?_⟩
  · rw [List.filterMap_append, List.filterMap_append, h.worked]
    rfl
  · rcases before with _ | ⟨_, _ | ⟨_, _ | _⟩⟩
    · cases heq
      simpa using h.free
    all_goals simp at heq

theorem Tidy.last {acts : List Act} (h : Tidy acts) (result : Except ComponentError Output) :
    Tidy (acts ++ [.lastChunk result]) := by
  refine ⟨?_, ?_, h.prompt.append fun before _ _ _ heq => ?_⟩
  · rw [keptAfter_append]
    exact h.free
  · rw [List.filterMap_append, List.filterMap_append, h.worked]
    rfl
  · rcases before with _ | ⟨_, _ | _⟩ <;> cases heq

theorem Tidy.attempt {acts attempt : List Act} {finalized : Bool} (h : Tidy acts)
    (hattempt : Attempt finalized attempt) (hhonest : Honest (acts ++ attempt)) :
    Tidy (acts ++ attempt) := by
  have := hattempt.of_honest hhonest
  rw [h.free] at this
  subst this
  exact h.waits finalized

theorem Tidy.delivery {acts attempt : List Act} {finalized : Bool} {input : Nat} {data : Payload}
    (h : Tidy acts) (hattempt : Attempt finalized attempt)
    (hhonest : Honest (acts ++ .enqueue input data :: attempt)) :
    Tidy (acts ++ .enqueue input data :: attempt) := by
  rw [List.append_cons] at hhonest
  have hkept : keptAfter (acts ++ [.enqueue input data]) = some data := by
    simp [keptAfter_append, Act.keep]
  have := hattempt.of_honest hhonest
  rw [hkept] at this
  obtain ⟨result, rfl⟩ := this
  exact h.takes input data finalized result

theorem Deliveries.tidy {acts : List Act} (h : Deliveries acts) (hhonest : Honest acts) :
    Tidy acts := by
  induction h with
  | nil => exact .nil
  | snoc _ hdelivery ih =>
    have hacts := ih hhonest.left
    cases hdelivery with
    | data input data hattempt => exact hacts.delivery hattempt hhonest
    | sign hattempt => exact hacts.attempt hattempt hhonest

/-- A plain node works on everything that comes in, at once and in order, all its life. -/
theorem Life.tidy {ended : Bool} {acts : List Act} (h : Life ended acts) (hhonest : Honest acts) :
    Tidy acts := by
  cases h with
  | running hacts => exact hacts.tidy hhonest
  | closed hacts hclosing =>
    obtain ⟨result, hattempt⟩ := hclosing
    rw [← List.append_assoc] at hhonest ⊢
    exact ((hacts.tidy hhonest.left.left).attempt hattempt hhonest.left).last result

theorem RootLife.tidy {ended : Bool} {acts : List Act} (h : RootLife ended acts)
    (hhonest : Honest acts) : Tidy acts := by
  cases h with
  | idle => exact .nil
  | running data hattempt => exact Tidy.nil.delivery hattempt hhonest
  | closed data hclosing =>
    obtain ⟨result, hattempt⟩ := hclosing
    rw [← List.cons_append] at hhonest ⊢
    exact (Tidy.nil.delivery hattempt hhonest.left).last result

theorem Run.Opened.cache {n n' : Node W} {acts : List Act} (h : Run.Opened n n' acts) :
    n'.cache = n.cache := by
  cases h with
  | untouched => rfl
  | tried w =>
    obtain ⟨acquired, heq⟩ := Run.acquire_eq n w
    rw [heq]

theorem keeps_opened {n n' : Node W} {acts : List Act} (h : Run.Opened n n' acts)
    (hfresh : n.Fresh) (hplain : n.component.Plain) : Keeps n' acts := by
  rw [Keeps, h.silent.work, h.cache, hfresh.cache]
  exact ⟨h.alike.component ▸ hplain, rfl, fun before _ _ _ heq => by cases before <;> cases heq⟩

/-- A node with a plain component takes out what it took in. -/
theorem Graph.Course.honest {g : Graph W} {world : W} {result : Except GraphError Unit}
    {all : Bool} {r₁ r₂ r₃ : Run W} (h : g.Course world result all r₁ r₂ r₃) (hready : g.Ready)
    {m : Nat} {n : Node W} (hn : g.nodes[m]? = some n) (hplain : n.component.Plain) :
    Honest (workAt r₂.journal.reverse m) := by
  obtain ⟨n₁, hn₁, hopened⟩ := h.opens.opened hn
  have hfresh := hready.fresh n (List.mem_of_getElem? hn)
  obtain ⟨-, -, -, -, hhonest⟩ := h.steps.local keeps_local hn₁
    (keeps_opened hopened hfresh hplain)
  exact hhonest

theorem AtRest.tidy {net : Wiring} {phase : Nat → Phase} {L : Ledger} (h : AtRest net phase L)
    {m : Nat} (hhonest : Honest (workAt L.journal m)) : Tidy (workAt L.journal m) := by
  by_cases hroot : net.Root m
  · exact (h.roots m hroot).calls.life.tidy hhonest
  · exact (h.quiet m (Nat.zero_le m) hroot).life.tidy hhonest

end FeatureGraph
