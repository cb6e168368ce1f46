-- Nodes with one provider in the run of a tree: what they take in while the
-- provider sends, and what happens when it has ended. Such a node ends if it
-- has heard from its provider, and else it never does.
import FeatureGraph.Proofs.Run.Rooted
import FeatureGraph.Proofs.Run.Slot

namespace FeatureGraph

variable {W : Type}

/-- A node with one provider in the course of a run: what it has heard from the provider, whether
it knows that the provider has ended, and whether it has ended itself. -/
def Node.link (key : String) (c : Component W) (u : Nat) (listeners : List Nat) (s : c.State)
    (heard told ended : Bool) : Node W :=
  { Node.new key c [u] with
    listeners, state := s, finalized := if told then [u] else [],
    enqueued := if heard then [u] else [], completed := ended, acquired := true }

/-- A component that takes out nothing before all of its input is there. -/
structure Component.HeldBack (c : Component W) : Prop where
  waits : ∀ s cache w, c.dequeue false s cache w = (none, s, cache, w)

theorem Component.aggregator_heldBack (c : Component W) : c.aggregator.HeldBack :=
  ⟨fun _ _ _ => rfl⟩

namespace Run

section Link

variable {key : String} {c : Component W} {id u : Nat} {listeners : List Nat} {s s' : c.State}
  {heard toldIt ended : Bool} {w w' w'' w₁ w₂ : W} {blocks blocks' blocks₁ : List (List (Node W))}
  {tail : List (Node W)} {x : Payload} {out : List Payload}

theorem isFinalized_link :
    (Node.link key c u listeners s heard toldIt ended).isFinalized = (toldIt && heard) := by
  have hcount : [u].eraseDups.length = 1 := by rw [List.eraseDups_cons]; rfl
  simp only [Node.isFinalized, Node.dependencyCount, Node.link, Node.new, hcount]
  cases heard <;> cases toldIt <;> rfl

theorem told_link : told u (Node.link key c u listeners s heard toldIt ended :: tail) =
    Node.link key c u listeners s heard true ended :: tail := by
  cases toldIt <;> simp [told, Node.link, Node.new]

theorem takes_told {data : Option Payload} {block : List (Node W)}
    (h : Takes id u data (Node.link key c u listeners s heard true ended :: tail) w block w') :
    Takes id u data (told u (Node.link key c u listeners s heard toldIt ended :: tail)) w block
      w' := by
  rwa [told_link]

theorem takeIn_link (hplain : c.Plain) :
    (Node.link key c u listeners s heard false false).takeIn u (some x) w =
      ({ Node.link key c u listeners s true false false with cache := ⟨some x⟩ }, w) := by
  simp only [Node.takeIn, Node.enqueueFrom, Node.link, Node.new, hplain.enqueue, Cache.replace]
  cases heard <;> simp

theorem dequeue_link (hplain : c.Plain) :
    Node.dequeue { Node.link key c u listeners s true false false with cache := ⟨some x⟩ } w =
      (some x, Node.link key c u listeners s true false false, w) := by
  simp only [Node.dequeue, Node.link, Node.new, hplain.dequeue, Cache.take]

variable (blocks) in
/-- A node that works on every chunk at once. -/
theorem takes_link (hplain : c.Plain) (hlisteners : listeners = heads (id + 1) blocks)
    (hout : c.transform x s w = (.ok (Output.ofPayloads out), s', w'))
    (hpours : Pours id out blocks w' blocks' w'') :
    Takes id u (some x) (Node.link key c u listeners s heard false false :: blocks.flatten) w
      (Node.link key c u listeners s' true false false :: blocks'.flatten) w'' := by
  have hwork : (Node.link key c u listeners s true false false).transform x w =
      (.ok (Output.ofPayloads out), Node.link key c u listeners s' true false false, w') := by
    simp only [Node.transform, Node.link, Node.new, hout]
  exact takes_going ⟨rfl, rfl⟩ (takeIn_link hplain) (.works (dequeue_link hplain) hwork) hlisteners
    hpours isFinalized_link

theorem works_waiting (hplain : c.Plain) :
    (Node.link key c u listeners s heard toldIt ended).Works w []
      (Node.link key c u listeners s heard toldIt ended) w := by
  refine .waits ?_
  simp only [Node.dequeue, Node.link, Node.new, hplain.dequeue, Cache.take, Cache.empty]

variable (blocks) in
/-- The end of a provider that was never heard from changes nothing. -/
theorem takes_silent (hplain : c.Plain) (hlisteners : listeners = heads (id + 1) blocks) :
    Takes id u none (Node.link key c u listeners s false true false :: blocks.flatten) w
      (Node.link key c u listeners s false true false :: blocks.flatten) w :=
  takes_going ⟨rfl, rfl⟩ rfl (works_waiting hplain) hlisteners .nil isFinalized_link

variable (blocks) in
/-- A node ends with its provider. -/
theorem takes_link_end (hplain : c.Plain) (hlisteners : listeners = heads (id + 1) blocks)
    (hfull : 0 ∉ blocks.map List.length)
    (hlast : c.lastChunk s w = (.ok (Output.ofPayloads out), s', w₁))
    (hpours : Pours id out blocks w₁ blocks₁ w₂)
    (hhands : Hands id none (id + 1) (blocks₁.map (told id)) w₂ blocks' w') :
    Takes id u none (Node.link key c u listeners s true true false :: blocks.flatten) w
      (Node.link key c u listeners s' true true true :: blocks'.flatten) w' := by
  have hcall : (Node.link key c u listeners s true true false).lastChunk w =
      (.ok (Output.ofPayloads out), Node.link key c u listeners s' true true true, w₁) := by
    simp only [Node.lastChunk, Node.link, Node.new, hlast]
  have hin : (Node.link key c u listeners s true true false).takeIn u none w =
    (Node.link key c u listeners s true true false, w) := rfl
  exact takes_last ⟨rfl, rfl⟩ hin (works_waiting hplain) hlisteners .nil isFinalized_link hfull
    ⟨rfl, out, w₁, blocks₁, w₂, hcall, hpours, hhands⟩

/-! ## Nodes that are held back -/

variable (blocks) in
/-- A node that is held back takes in a chunk and waits. -/
theorem takes_held (hheld : c.HeldBack) (hlisteners : listeners = heads (id + 1) blocks)
    (hin : c.enqueue x 0 s Cache.empty w = (s', Cache.empty, w)) :
    Takes id u (some x) (Node.link key c u listeners s heard false false :: blocks.flatten) w
      (Node.link key c u listeners s' true false false :: blocks.flatten) w := by
  have htaken : (Node.link key c u listeners s heard false false).takeIn u (some x) w =
      (Node.link key c u listeners s' true false false, w) := by
    simp only [Node.takeIn, Node.enqueueFrom, Node.inputOf, Node.link, Node.new,
      List.idxOf_cons_self, hin]
    cases heard <;> simp
  refine takes_going ⟨rfl, rfl⟩ htaken (.waits ?_) hlisteners .nil isFinalized_link
  rw [Node.dequeue, isFinalized_link]
  simp only [Node.link, Node.new, Bool.false_and, hheld.waits]

variable (blocks) in
/-- The end of a provider that was never heard from changes nothing. -/
theorem takes_held_silent (hheld : c.HeldBack) (hlisteners : listeners = heads (id + 1) blocks) :
    Takes id u none (Node.link key c u listeners s false true false :: blocks.flatten) w
      (Node.link key c u listeners s false true false :: blocks.flatten) w := by
  have hin : (Node.link key c u listeners s false true false).takeIn u none w =
    (Node.link key c u listeners s false true false, w) := rfl
  refine takes_going ⟨rfl, rfl⟩ hin (.waits ?_) hlisteners .nil isFinalized_link
  rw [Node.dequeue, isFinalized_link]
  simp only [Node.link, Node.new, Bool.and_false, hheld.waits]

variable (blocks) in
/-- Once its provider has ended the node works on all that it holds, and ends. -/
theorem takes_held_end {y : Payload} {s₁ : c.State} (hlisteners : listeners = heads (id + 1) blocks)
    (hfull : 0 ∉ blocks.map List.length)
    (hgot : c.dequeue true s Cache.empty w = (some y, s₁, Cache.empty, w))
    (hout : c.transform y s₁ w = (.ok (Output.ofPayloads out), s', w₁))
    (hpours : Pours id out blocks w₁ blocks₁ w₂) (hlast : c.lastChunk s' w₂ = (.ok [], s', w₂))
    (hhands : Hands id none (id + 1) (blocks₁.map (told id)) w₂ blocks' w') :
    Takes id u none (Node.link key c u listeners s true true false :: blocks.flatten) w
      (Node.link key c u listeners s' true true true :: blocks'.flatten) w' := by
  have hin : (Node.link key c u listeners s true true false).takeIn u none w =
    (Node.link key c u listeners s true true false, w) := rfl
  have htaken : (Node.link key c u listeners s true true false).dequeue w =
      (some y, Node.link key c u listeners s₁ true true false, w) := by
    rw [Node.dequeue, isFinalized_link]
    simp only [Node.link, Node.new, Bool.and_self, hgot]
  have hwork : (Node.link key c u listeners s₁ true true false).transform y w =
      (.ok (Output.ofPayloads out), Node.link key c u listeners s' true true false, w₁) := by
    simp only [Node.transform, Node.link, Node.new, hout]
  have hcall : (Node.link key c u listeners s' true true false).lastChunk w₂ =
      (.ok [], Node.link key c u listeners s' true true true, w₂) := by
    simp only [Node.lastChunk, Node.link, Node.new, hlast]
  exact takes_last ⟨rfl, rfl⟩ hin (.works htaken hwork) hlisteners hpours isFinalized_link hfull
    ⟨rfl, [], w₂, blocks₁, w₂, hcall, .nil, hhands⟩

/-! ## The first and the last call -/

theorem opens_link (hacquire : c.acquire c.start w = (.ok (), s, w)) :
    Opens w { Node.new key c [u] with listeners := listeners }
      (Node.link key c u listeners s false false false) := by
  simp [Opens, Node.acquire, Node.link, Node.new, hacquire]

theorem shuts_link {rest : List (Node W)} (hrelease : c.release s w = (.ok (), s', w₁))
    (h : Shuts rest w₁ w') :
    Shuts (Node.link key c u listeners s heard toldIt ended :: rest) w w' := by
  obtain ⟨rest', h⟩ := h
  have hcall : (Node.link key c u listeners s heard toldIt ended).release w = (.ok (),
      { Node.link key c u listeners s' heard toldIt ended with acquired := false }, w₁) := by
    simp only [Node.release, Node.link, Node.new, hrelease]
  exact ⟨_, .release rfl hcall h⟩

end Link

end Run

end FeatureGraph
