-- What a run leaves of its surroundings. What every call of every component
-- keeps, the acquiring and the driving keep.
import FeatureGraph.Proofs.Run.Bracket

namespace FeatureGraph

variable {W : Type} {P : W → W → Prop}

namespace Component

/-- A component that keeps something of its surroundings, except perhaps when it is released. -/
structure Gentle (P : W → W → Prop) (c : Component W) : Prop where
  enqueue : ∀ data input s cache w, P w (c.enqueue data input s cache w).2.2
  dequeue : ∀ finalized s cache w, P w (c.dequeue finalized s cache w).2.2.2
  transform : ∀ data s w, P w (c.transform data s w).2.2
  lastChunk : ∀ s w, P w (c.lastChunk s w).2.2
  acquire : ∀ s w, P w (c.acquire s w).2.2

/-- A component that keeps something of its surroundings at every call. -/
structure Detached (P : W → W → Prop) (c : Component W) : Prop extends Gentle P c where
  release : ∀ s w, P w (c.release s w).2.2

theorem Detached.mono {Q : W → W → Prop} {c : Component W} (h : c.Detached P)
    (hPQ : ∀ {w w'}, P w w' → Q w w') : c.Detached Q where
  enqueue data input s cache w := hPQ (h.enqueue data input s cache w)
  dequeue finalized s cache w := hPQ (h.dequeue finalized s cache w)
  transform data s w := hPQ (h.transform data s w)
  lastChunk s w := hPQ (h.lastChunk s w)
  acquire s w := hPQ (h.acquire s w)
  release s w := hPQ (h.release s w)

/-- A component that only turns chunks into chunks keeps all of its surroundings. -/
theorem stateless_detached (hrefl : ∀ w, P w w)
    (transform : Payload → Except ComponentError Output) :
    (stateless (W := W) transform).Detached P where
  enqueue _ _ _ _ w := hrefl w
  dequeue _ _ _ w := hrefl w
  transform _ _ w := hrefl w
  lastChunk _ w := hrefl w
  acquire _ w := hrefl w
  release _ w := hrefl w

end Component

namespace Run

variable {r r' : Run W} {n : Node W}

theorem Hook.world (hook : Hook) (h : n.component.Gentle P) (w : W) : P w (hook.call n w).2.2 := by
  cases hook with
  | enqueueFrom source data => exact h.enqueue ..
  | enqueueRoot data => exact h.enqueue ..
  | dequeue => exact h.dequeue ..
  | transform data => exact h.transform ..
  | lastChunk => exact h.lastChunk ..

theorem acquire_world (n : Node W) (w : W) :
    (n.acquire w).2.2 = (n.component.acquire n.state w).2.2 := by
  unfold Node.acquire
  rcases n.component.acquire n.state w with ⟨_ | _, _, _⟩ <;> rfl

/-- No step changes the component of a node. -/
theorem Step.components (h : Step r r') :
    r'.nodes.map (·.component) = r.nodes.map (·.component) := by
  refine List.ext_getElem? fun m => ?_
  rw [List.getElem?_map, List.getElem?_map]
  cases h with
  | @call hook _ id n hn =>
    rw [List.getElem?_set]
    split
    · rename_i heq
      subst heq
      rw [if_pos (List.getElem?_eq_some_iff.mp hn).1, hn]
      exact congrArg some (hook.alike n r.world).1.component
    · rfl
  | emit => rfl
  | finalize _ provider listener =>
    rw [List.getElem?_modify]
    cases r.nodes[m]? with
    | none => rfl
    | some n => exact congrArg some (by dsimp only; split <;> rfl)

section Keeps

variable (hrefl : ∀ w, P w w) (htrans : ∀ {a b c}, P a b → P b c → P a c)

include hrefl htrans

/-- The driving keeps of the surroundings what each call keeps. -/
theorem Steps.world (h : Steps r r')
    (hgentle : ∀ (m : Nat) n, r.nodes[m]? = some n → n.component.Gentle P) :
    P r.world r'.world := by
  refine (h.keep (I := fun r' => P r.world r'.world ∧
    ∀ (m : Nat) n, r'.nodes[m]? = some n → n.component.Gentle P) ⟨hrefl _, hgentle⟩ ?_).1
  rintro r₁ r₂ hstep ⟨hworld, hgentle⟩
  cases hstep with
  | @call hook _ id n hn =>
    refine ⟨htrans hworld (hook.world (hgentle id n hn) _), fun m n' hn' => ?_⟩
    rw [List.getElem?_set] at hn'
    split at hn'
    · split at hn'
      · cases hn'
        rw [(hook.alike n r₁.world).1.component]
        exact hgentle id n hn
      · cases hn'
    · exact hgentle m n' hn'
  | emit => exact ⟨hworld, hgentle⟩
  | finalize _ provider listener =>
    refine ⟨hworld, fun m n' hn' => ?_⟩
    rw [List.getElem?_modify] at hn'
    obtain ⟨n, hn, rfl⟩ := Option.map_eq_some_iff.mp hn'
    have hcomponent := hgentle m n hn
    split
    · exact hcomponent
    · exact hcomponent

/-- The acquiring keeps of the surroundings what each acquiring of a component keeps. -/
theorem Acquires.keeps {all : Bool} {ids : List Nat} (h : Acquires all ids r r')
    (hnodup : ids.Nodup)
    (hgentle : ∀ (m : Nat) n, r.nodes[m]? = some n → n.component.Gentle P) :
    P r.world r'.world := by
  refine h.world hnodup (I := P r.world) (fun m _ n hn w hw => htrans hw ?_) (hrefl _)
  rw [acquire_world]
  exact (hgentle m n hn).acquire ..

end Keeps

end Run

end FeatureGraph
