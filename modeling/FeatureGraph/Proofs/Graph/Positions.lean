-- Where deliveries arrive. What a node takes in from a provider arrives at
-- the first position that the provider has among the needs. A provider that
-- stands there once is heard at its own position; one that stands there more
-- than once is heard so many times at the first of them, and at the others
-- not at all.
import FeatureGraph.Component.Concatenate
import FeatureGraph.Proofs.Graph.Edges

namespace FeatureGraph

variable {W : Type}

/-! ## Positions that hear nothing -/

section Tail

variable {j ends : List JournalEntry} {m i : Nat}

theorem receivedAt_append (h : ∀ e ∈ ends, e.act.isBracket = true) :
    receivedAt (j ++ ends) m i = receivedAt j m i := by
  rw [receivedAt, actsAt_append, List.filterMap_append, (silent_actsAt h m).received,
    List.append_nil]
  rfl

end Tail

namespace Graph

variable {g : Graph W}

/-- Nothing arrives at a position of a provider that stands among the needs before. -/
theorem Course.receivedAt_later {world : W} {result : Except GraphError Unit} {all : Bool}
    {r₁ r₂ r₃ : Run W} {m i u : Nat} (h : g.Course world result all r₁ r₂ r₃)
    (hi : ((wiringOf g.nodes).needs m)[i]? = some u)
    (hlater : ((wiringOf g.nodes).needs m).idxOf u ≠ i) (hready : g.Ready) :
    receivedAt r₂.journal.reverse m i = [] := by
  rw [receivedAt, List.filterMap_eq_nil_iff]
  intro act hact
  by_contra hsome
  cases act with
  | enqueue input data =>
    have hinput : input = i := by
      by_contra hne
      exact hsome (if_neg hne)
    subst hinput
    rcases h.halted.placedAt hact input data rfl with hroot | ⟨v, hv, hplace⟩
    · rw [hroot] at hi
      cases hi
    · -- A delivery at this position comes from the provider that is first found there.
      have hmem := hready.wired.mem_needs hv
      have hthere : ((wiringOf g.nodes).needs m)[input]? = some v := by
        rw [hplace]
        exact List.getElem?_idxOf hmem
      rw [hi] at hthere
      cases hthere
      exact hlater hplace.symm
  | acquire | dequeue | transform | lastChunk | emit | release => exact hsome rfl

/-- In a run that comes to its end all that a provider put out was sent, and arrives at the first
position that the provider has among the needs of a node that listens to it, as often as the
provider stands there; nothing arrives at its other positions. So what arrives at a position
is what its provider sent exactly if the provider stands among the needs once, or sent
nothing. -/
theorem arrives_at_first_position (h : g.Built) (inputs : Inputs) (world : W)
    (hok : (g.run inputs world).2 = .ok ()) {m i u : Nat}
    (hi : ((wiringOf g.nodes).needs m)[i]? = some u)
    (hlinked : m ∈ (wiringOf g.nodes).listeners u) :
    outputOf (g.journal inputs world) u = (sentBy (g.journal inputs world) u).map .ok ∧
    receivedAt (g.journal inputs world) m i =
      (if ((wiringOf g.nodes).needs m).idxOf u = i then
        (sentBy (g.journal inputs world) u).flatMap
          (List.replicate (((wiringOf g.nodes).needs m).count u))
      else []) ∧
    (receivedAt (g.journal inputs world) m i = sentBy (g.journal inputs world) u ↔
      ((wiringOf g.nodes).needs m).count u = 1 ∨ sentBy (g.journal inputs world) u = []) := by
  obtain ⟨all, r₁, r₂, r₃, ends, hcourse, -, hjournal, hbracket⟩ := course_of_ok h.ready hok
  obtain ⟨phase, hrest, -, hphase⟩ := hcourse.atRest rfl
  have hdone := AtRest.allSent hrest hphase u
  rw [hjournal, receivedAt_append hbracket, sentBy_append hbracket,
    outputOf_append hbracket]
  refine ⟨hdone.1, ?_⟩
  by_cases hfirst : ((wiringOf g.nodes).needs m).idxOf u = i
  · have hreceived : receivedAt r₂.journal.reverse m i =
        (sentBy r₂.journal.reverse u).flatMap
          (List.replicate (((wiringOf g.nodes).needs m).count u)) := by
      rw [← hfirst]
      exact hdone.2 m hlinked
    rw [if_pos hfirst, hreceived]
    exact ⟨rfl, flatMap_replicate_eq_self⟩
  · rw [if_neg hfirst, hcourse.receivedAt_later hi hfirst h.ready]
    refine ⟨rfl, fun heq => Or.inr heq.symm, ?_⟩
    rintro (hcount | hnothing)
    · -- A provider that stands there once has no position but the first.
      exact absurd (idxOf_of_count hi hcount) hfirst
    · exact hnothing.symm

/-! ## A node that needs one of two providers twice -/

/-- Puts the bytes of a chunk out one by one. -/
def spelling : Component Unit :=
  .stateless fun data => .ok ((data.bytes?.getD []).map fun b => .ok (.bytes [b]))

def pair : Graph Unit := ⟨"crossed", [Node.new "a" spelling [], Node.new "b" spelling []]⟩

/-- A concatenation of the second root, the first, and the second again. -/
def crossed : Graph Unit :=
  ⟨"crossed", [{ Node.new "a" spelling [] with listeners := [2] },
    { Node.new "b" spelling [] with listeners := [2, 2] },
    Node.new "c" Component.concatenate.aggregator [1, 0, 1]]⟩

theorem pair_built : pair.Built := by
  have hfirst : (Graph.empty "crossed").add "a" spelling [] =
      .ok (0, ⟨"crossed", [Node.new "a" spelling []]⟩) := rfl
  have hpair : Graph.add ⟨"crossed", [Node.new "a" spelling []]⟩ "b" spelling [] =
      .ok (1, pair) := rfl
  exact .add (.add (.empty "crossed") hfirst) hpair

theorem crossed_built : crossed.Built :=
  .add pair_built (show pair.add "c" Component.concatenate.aggregator [1, 0, 1] =
    .ok (2, crossed) from rfl)

def twoWords : Inputs := (Dictionary.empty.insert "a" (.literal "xy")).insert "b" (.literal "z")

/-- The root that is needed once is heard at its own position, between those of the other. -/
theorem once_needed_is_heard_in_place :
    (crossed.run twoWords ()).2 = .ok () ∧
      receivedAt (crossed.journal twoWords ()) 2 1 = sentBy (crossed.journal twoWords ()) 0 ∧
      (sentBy (crossed.journal twoWords ()) 0).map Payload.bytes? = [some [0x78], some [0x79]] := by
  have hok : (crossed.run twoWords ()).2 = .ok () := eq_ok_of_isDone (by decide +kernel)
  obtain ⟨-, -, hiff⟩ := arrives_at_first_position crossed_built twoWords () hok
    (show ((wiringOf crossed.nodes).needs 2)[1]? = some 0 by decide) (by decide)
  exact ⟨hok, hiff.mpr (Or.inl (by decide)), by decide +kernel⟩

/-- The root that is needed twice is not heard at its second position. What should be the bytes
of "z", "xy" and "z" is "zzxy". -/
theorem second_position_is_silent :
    crossed.Built ∧ (crossed.run twoWords ()).2 = .ok () ∧
      ((wiringOf crossed.nodes).needs 2)[2]? = some 1 ∧ 2 ∈ (wiringOf crossed.nodes).listeners 1 ∧
      (sentBy (crossed.journal twoWords ()) 1).map Payload.bytes? = [some [0x7A]] ∧
      receivedAt (crossed.journal twoWords ()) 2 2 = [] ∧
      (sentBy (crossed.journal twoWords ()) 2).map Payload.bytes? =
        [some [0x7A, 0x7A, 0x78, 0x79]] :=
  ⟨crossed_built, eq_ok_of_isDone (by decide +kernel), by decide, by decide, by decide +kernel,
    by decide +kernel, by decide +kernel⟩

end Graph

end FeatureGraph
