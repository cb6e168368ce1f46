-- What stands behind the end of a node. A node that was called for its end
-- had been given all that each of its providers put out, and every provider
-- had ended as well, with all of its own providers before it.
import FeatureGraph.Proofs.Run.Balance
import FeatureGraph.Proofs.Run.Halting
import FeatureGraph.Proofs.Run.Slot

namespace FeatureGraph

variable {W : Type} {net : Wiring} {L : Ledger} {r : Run W} {u v m id : Nat}

/-- The node has put out all it had to and all of that came in everywhere. It was given all that
its providers put out, and they are complete as well. -/
inductive Complete (net : Wiring) (j : List JournalEntry) : Nat → Prop
  | intro {m : Nat} : Sealed net j m →
      (∀ u ∈ net.needs m, Complete net j u) →
      (∀ u ∈ net.needs m, received net j m u = (sentBy j u).flatMap fun chunk =>
        List.replicate ((net.needs m).count u) chunk) →
      Complete net j m

/-! ## What was given -/

theorem Sound.listens (h : Sound net r.ledger) (hw : net.Wired) (hhalted : Run.Halted net r)
    (hu : u ∈ r.ledger.enqueued m) : m ∈ net.listeners u := by
  obtain ⟨hneeds, hreceived⟩ := h.heard hu
  obtain ⟨data, hdata⟩ := List.exists_mem_of_ne_nil _ hreceived
  obtain ⟨act, hact, heq⟩ := List.mem_filterMap.mp hdata
  have hplaced := hhalted.placedAt hact
  cases act with
  | enqueue input d =>
    rcases hplaced input d rfl with hroot | ⟨v, hv, -⟩
    · rw [hroot] at hneeds
      exact absurd hneeds List.not_mem_nil
    · exact hw.mem_listeners hv hneeds
  | acquire | dequeue | transform | lastChunk | emit | release => cases heq

/-- A node that has ended was given all that each provider put out. -/
theorem Sound.given (h : Sound net r.ledger) (hw : net.Wired) (hhalted : Run.Halted net r)
    (hended : r.ledger.ended m = true) (hu : u ∈ net.needs m) :
    Sealed net r.ledger.journal u ∧ received net r.ledger.journal m u =
      (sentBy r.ledger.journal u).flatMap fun chunk =>
        List.replicate ((net.needs m).count u) chunk := by
  obtain ⟨hfinalized, henqueued⟩ := h.full hended u hu
  have hsealed := h.sealed hfinalized
  exact ⟨hsealed, hsealed.balanced m (h.listens hw hhalted henqueued)⟩

/-- What is sealed is complete, down to the roots. -/
theorem Sealed.complete (hsealed : Sealed net r.ledger.journal m) (h : Sound net r.ledger)
    (hw : net.Wired) (hhalted : Run.Halted net r) : Complete net r.ledger.journal m := by
  induction m using Nat.strongRecOn with
  | ind m ih =>
    obtain ⟨out, hout⟩ := hsealed.ended
    have hgiven := fun u hu => h.given hw hhalted (h.marked hout) (u := u) hu
    exact .intro hsealed (fun u hu => ih u (hw.earlier hu) (hgiven u hu).1)
      fun u hu => (hgiven u hu).2

/-- A node with one provider has taken in nothing but what came from there. -/
theorem Run.Halted.takenAt_eq (hhalted : Run.Halted net r) (hw : net.Wired)
    (hneeds : net.needs m = [u]) :
    takenAt r.journal.reverse m = received net r.journal.reverse m u := by
  refine List.filterMap_congr fun act hact => ?_
  cases act with
  | enqueue input data =>
    have hinput : input = (net.needs m).idxOf u := by
      rcases hhalted.placedAt hact input data rfl with hroot | ⟨v, hv, hinput⟩
      · rw [hroot] at hneeds
        cases hneeds
      · have hmem := hw.mem_needs hv
        rw [hneeds, List.mem_singleton] at hmem
        exact hmem ▸ hinput
    simp [Act.taken?, Act.received?, hinput]
  | acquire | dequeue | transform | lastChunk | emit | release => rfl

/-- So if it has ended it has taken in what the provider sent. -/
theorem Sound.takenAt_of_ended (h : Sound net r.ledger) (hw : net.Wired)
    (hhalted : Run.Halted net r) (hneeds : net.needs m = [u]) (hended : r.ledger.ended m = true) :
    takenAt r.journal.reverse m = sentBy r.journal.reverse u := by
  obtain ⟨-, hreceived⟩ := h.given hw hhalted hended (u := u) (by simp [hneeds])
  rw [hhalted.takenAt_eq hw hneeds]
  simpa [hneeds, Run.ledger] using hreceived

/-! ## The last call -/

/-- All that happened at a node before its last call went well, and no work came after it. -/
theorem Sound.split_of_last (h : Sound net r.ledger) (hhalted : Run.Halted net r)
    {before after : List Act} {result : Except ComponentError Output}
    (heq : r.acts m = before ++ .lastChunk result :: after) :
    (∀ act ∈ before, act.failed = false) ∧ (∀ result, Act.lastChunk result ∉ before) ∧
      ∀ act ∈ after, act.isWork = false := by
  have hwork : workAt r.ledger.journal m =
      before.filter Act.isWork ++ .lastChunk result :: after.filter Act.isWork := by
    rw [workAt, show actsAt r.ledger.journal m = _ from heq, List.filter_append,
      List.filter_cons_of_pos rfl]
  obtain ⟨hafter, -⟩ := h.last hwork
  refine ⟨fun act hact => ?_, fun result' hmem => ?_, fun act hact => ?_⟩
  · by_contra hfailed
    rw [Bool.not_eq_false] at hfailed
    obtain ⟨first, second, rfl⟩ := List.append_of_mem hact
    rw [List.append_assoc, List.cons_append] at heq
    have := hhalted.last heq hfailed
    simp at this
  · exact h.last_once hwork result' (List.mem_filter.mpr ⟨hmem, rfl⟩)
  · have := List.filter_eq_nil_iff.mp hafter act hact
    simpa using this

/-- A plain node with one provider that has ended has worked on what the provider sent. -/
theorem Sound.workedAt_of_last (h : Sound net r.ledger) (hw : net.Wired)
    (hhalted : Run.Halted net r) (hneeds : net.needs m = [u])
    {result : Except ComponentError Output} (hlast : Act.lastChunk result ∈ r.acts m)
    (hhonest : Honest (workAt r.journal.reverse m)) :
    workedAt r.journal.reverse m = sentBy r.journal.reverse u := by
  have hwork : Act.lastChunk result ∈ workAt r.ledger.journal m := List.mem_filter.mpr ⟨hlast, rfl⟩
  obtain ⟨before, after, heq⟩ := List.append_of_mem hwork
  obtain ⟨-, ended, hlife⟩ := h.last heq
  have hroot : ¬ net.Root m := fun hroot => by
    rw [hroot] at hneeds
    cases hneeds
  rw [net.life_not_root hroot] at hlife
  rw [workedAt_eq, ← h.takenAt_of_ended hw hhalted hneeds (h.marked hlast), takenAt_eq]
  exact (hlife.tidy hhonest).worked

end FeatureGraph
