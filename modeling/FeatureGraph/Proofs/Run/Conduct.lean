-- The conduct of a component. What happens at a node while the roots are
-- driven is a run of its component: each call finds the state that the calls
-- before it have left.
import FeatureGraph.Proofs.Lists
import FeatureGraph.Proofs.Run.Steps

namespace FeatureGraph

variable {W : Type}

namespace Component

/-- What happens at a node, with the state of its component before and after it. -/
inductive Does (c : Component W) : c.State → Act → c.State → Prop
  | enqueue (data : Payload) (input : Nat) (s : c.State) (cache : Cache) (w : W) :
      Does c s (.enqueue input data) (c.enqueue data input s cache w).1
  | dequeue (finalized : Bool) (s : c.State) (cache : Cache) (w : W) :
      Does c s (.dequeue finalized (c.dequeue finalized s cache w).1)
        (c.dequeue finalized s cache w).2.1
  | transform (data : Payload) (s : c.State) (w : W) :
      Does c s (.transform data (c.transform data s w).1) (c.transform data s w).2.1
  | lastChunk (s : c.State) (w : W) :
      Does c s (.lastChunk (c.lastChunk s w).1) (c.lastChunk s w).2.1
  | emit (chunk : Payload) (s : c.State) : Does c s (.emit chunk) s

/-- What happens at a node from one state of its component to another. -/
inductive Runs (c : Component W) (s : c.State) : List Act → c.State → Prop
  | nil : Runs c s [] s
  | snoc {acts : List Act} {act : Act} {s₁ s₂ : c.State} :
      Runs c s acts s₁ → Does c s₁ act s₂ → Runs c s (acts ++ [act]) s₂

/-- The component at any point on the way. -/
theorem Runs.at {c : Component W} {s s' : c.State} {acts before after : List Act} {act : Act}
    (h : c.Runs s acts s') (heq : acts = before ++ act :: after) :
    ∃ s₁ s₂, c.Runs s before s₁ ∧ c.Does s₁ act s₂ := by
  induction h generalizing after with
  | nil => simp at heq
  | @snoc acts last s₁ s₂ hruns hdoes ih =>
    rcases snoc_eq_append heq with ⟨rfl, rfl, -⟩ | ⟨front, -, hfront⟩
    · exact ⟨s₁, s₂, hruns, hdoes⟩
    · exact ih hfront

end Component

namespace Run

variable {c : Component W} {s : c.State} {r r' : Run W} {id : Nat} {n : Node W}

/-- A call of a node is a call of its component. -/
theorem Holds.does (h : Holds n c s) (hook : Hook) (w : W) :
    ∃ s', Holds (hook.call n w).2.1 c s' ∧ c.Does s (hook.call n w).1 s' := by
  obtain ⟨n, rfl⟩ := h.exists_eq
  cases hook with
  | enqueueFrom source data => exact ⟨_, ⟨rfl, HEq.rfl⟩, .enqueue data _ s n.cache w⟩
  | enqueueRoot data => exact ⟨_, ⟨rfl, HEq.rfl⟩, .enqueue data 0 s n.cache w⟩
  | dequeue => exact ⟨_, ⟨rfl, HEq.rfl⟩, .dequeue _ s n.cache w⟩
  | transform data => exact ⟨_, ⟨rfl, HEq.rfl⟩, .transform data s w⟩
  | lastChunk => exact ⟨_, ⟨rfl, HEq.rfl⟩, .lastChunk s w⟩

/-- What the driving does at a node is a run of the node's component. -/
theorem Steps.runs (h : Steps r r') (hn : r.nodes[id]? = some n) (hs : Holds n c s) :
    ∃ n' s' acts, r'.nodes[id]? = some n' ∧ Holds n' c s' ∧ r'.acts id = r.acts id ++ acts ∧
      c.Runs s acts s' := by
  have hlaw : Local fun n' acts =>
      ∃ s' rest, Holds n' c s' ∧ acts = r.acts id ++ rest ∧ c.Runs s rest s' := ⟨?_, ?_, ?_⟩
  · obtain ⟨n', hn', s', rest, hholds, hacts, hruns⟩ :=
      h.local hlaw hn ⟨s, [], hs, by simp, .nil⟩
    exact ⟨n', s', rest, hn', hholds, hacts, hruns⟩
  · rintro n' acts hook w ⟨s', rest, hholds, rfl, hruns⟩
    obtain ⟨s'', hholds', hdoes⟩ := hholds.does hook w
    exact ⟨s'', rest ++ [(hook.call n' w).1], hholds', by simp, hruns.snoc hdoes⟩
  · rintro n' acts chunk ⟨s', rest, hholds, rfl, hruns⟩
    exact ⟨s', rest ++ [.emit chunk], hholds, by simp, hruns.snoc (.emit chunk s')⟩
  · rintro n' acts provider ⟨s', rest, hholds, hacts, hruns⟩
    exact ⟨s', rest, ⟨hholds.component, hholds.state⟩, hacts, hruns⟩

end Run

end FeatureGraph
