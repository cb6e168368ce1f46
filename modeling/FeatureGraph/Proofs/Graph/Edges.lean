-- The edges of a graph lose nothing. In a run that comes to its end, what a
-- node took in from a provider is what the provider sent, chunk for chunk and
-- in order.
import FeatureGraph.Proofs.Graph.Calls
import FeatureGraph.Proofs.Run.Slot

namespace FeatureGraph

variable {W : Type}

namespace Graph

variable {g : Graph W}

/-! ## Runs that come to their end -/

/-- What the roots leave when all of them have ended. -/
theorem AtRest.allSent {net : Wiring} {phase : Nat → Phase} {L : Ledger}
    (h : AtRest net phase L) (hphase : ∀ v, phase v = .done ∨ phase v = .idle) (u : Nat) :
    AllSent L.journal u ∧ Balanced net L.journal u := by
  by_cases hroot : net.Root u
  · have hstands := h.roots u hroot
    refine ⟨?_, hstands.balanced⟩
    rw [AllSent, hstands.owing]
    rcases hphase u with hover | hidle
    · simp [hover, Phase.rest]
    · simp [hidle, Phase.rest]
  · have hquiet := h.quiet u (Nat.zero_le u) hroot
    exact ⟨hquiet.allSent, hquiet.balanced⟩

/-- In a run that comes to its end every chunk arrives: a node has taken in from each provider
it listens to what the provider sent, in order, as often as it needs the provider; and the
provider has sent all it put out. A node that takes in and takes out as nodes do by default has
turned everything it took in into chunks, each chunk at once. -/
theorem edges_lose_nothing (h : g.Built) (inputs : Inputs) (world : W)
    (hok : (g.run inputs world).2 = .ok ()) :
    (∀ u, outputOf (g.journal inputs world) u =
        (sentBy (g.journal inputs world) u).map .ok) ∧
      (∀ m u, u ∈ (wiringOf g.nodes).needs m → m ∈ (wiringOf g.nodes).listeners u →
        received (wiringOf g.nodes) (g.journal inputs world) m u =
          (sentBy (g.journal inputs world) u).flatMap fun chunk =>
            List.replicate (((wiringOf g.nodes).needs m).count u) chunk) ∧
      ∀ m n, g.nodes[m]? = some n → n.component.Plain →
        workedAt (g.journal inputs world) m = takenAt (g.journal inputs world) m ∧
          Prompt (workAt (g.journal inputs world) m) := by
  obtain ⟨all, r₁, r₂, r₃, ends, hcourse, -, hjournal, hbracket⟩ := course_of_ok h.ready hok
  obtain ⟨phase, hrest, -, hphase⟩ := hcourse.atRest rfl
  have hdone := AtRest.allSent hrest hphase
  rw [hjournal]
  refine ⟨fun u => ?_, fun m u _ hm => ?_, fun m n hn hplain => ?_⟩
  · rw [outputOf_append hbracket, sentBy_append hbracket]
    exact (hdone u).1
  · rw [received_append hbracket, sentBy_append hbracket]
    exact (hdone u).2 m hm
  · have htidy : Tidy (workAt r₂.journal.reverse m) :=
      hrest.tidy (hcourse.honest h.ready hn hplain)
    rw [workedAt_eq, takenAt_eq, workAt_append hbracket]
    exact ⟨htidy.worked, htidy.prompt⟩

/-- A root, and a listener that needs it twice and leaves its intake to the cache. -/
def doubled : Graph Unit :=
  ⟨"twice", [{ Node.new "a" passing [] with listeners := [1, 1] }, Node.new "b" passing [0, 0]]⟩

theorem doubled_built : doubled.Built :=
  .add lone_built (show lone.add "b" passing [0, 0] = .ok (1, doubled) from rfl)

def isDone : Except GraphError Unit → Bool
  | .ok () => true
  | .error _ => false

theorem eq_ok_of_isDone {result : Except GraphError Unit} (h : isDone result = true) :
    result = .ok () := by
  rcases result with _ | ⟨⟩
  · cases h
  · rfl

theorem doubled_edges_lose_nothing : (doubled.run oneChunk ()).2 = .ok () ∧
    received (wiringOf doubled.nodes) (doubled.journal oneChunk ()) 1 0 =
      (sentBy (doubled.journal oneChunk ()) 0).flatMap (List.replicate 2) ∧
    workedAt (doubled.journal oneChunk ()) 1 = takenAt (doubled.journal oneChunk ()) 1 := by
  have hok : (doubled.run oneChunk ()).2 = .ok () := eq_ok_of_isDone (by decide +kernel)
  obtain ⟨-, hedges, hworked⟩ := edges_lose_nothing doubled_built oneChunk () hok
  exact ⟨hok, hedges 1 0 (by decide) (by decide),
    (hworked 1 _ rfl ⟨fun _ _ _ _ _ => rfl, fun _ _ _ _ => rfl⟩).1⟩

end Graph

end FeatureGraph
