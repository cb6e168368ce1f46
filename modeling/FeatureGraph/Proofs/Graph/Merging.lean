-- What a concatenation makes of its providers. It ends exactly if it is linked
-- to its providers and each of them has ended and sent something; and then it
-- has sent all that the first of them sent, all that the second sent, and so
-- on, in one chunk. In what turns the chunks came in does not show.
import FeatureGraph.Proofs.Graph.Joining
import FeatureGraph.Proofs.Graph.Positions

namespace FeatureGraph

variable {W : Type}

namespace Graph

variable {g : Graph W}

/-- What ends a journal without a call of a node's hooks ends no node. -/
theorem ended_append_brackets {j ends : List JournalEntry} {m : Nat}
    (h : ∀ e ∈ ends, e.act.isBracket = true) : Ended (j ++ ends) m ↔ Ended j m := by
  rw [ended_append, or_iff_left]
  rintro ⟨last, hlast⟩
  cases silent_actsAt h m _ hlast

/-- A node with needs that is linked to them has not been pruned. -/
theorem Ready.live_of_linked (h : g.Ready) {m : Nat} {n : Node W} (hn : g.nodes[m]? = some n)
    (hneeds : n.needs ≠ []) (hlinked : (wiringOf g.nodes).Linked m) : n.pruned = false := by
  obtain ⟨u, hu⟩ := List.exists_mem_of_ne_nil _ hneeds
  have hm : m ∈ (wiringOf g.nodes).listeners u := by
    rw [← List.count_pos_iff, hlinked u, Course.needs_eq hn]
    exact List.count_pos_iff.mpr hu
  have hlive := h.wired.live hm
  simpa [wiringOf, hn] using hlive

/-- In a run that comes to its end a node with needs ends exactly if it is linked to them and
each of them ends, and sends something. -/
theorem Course.ended_iff_linked {world : W} {all : Bool} {r₁ r₂ r₃ : Run W} {m : Nat} {n : Node W}
    (h : g.Course world (.ok ()) all r₁ r₂ r₃) (hready : g.Ready) (hn : g.nodes[m]? = some n)
    (hneeds : n.needs ≠ []) :
    Ended r₂.journal.reverse m ↔ (wiringOf g.nodes).Linked m ∧
      ∀ u ∈ n.needs, Ended r₂.journal.reverse u ∧ sentBy r₂.journal.reverse u ≠ [] := by
  by_cases hlinked : (wiringOf g.nodes).Linked m
  · rw [h.ended_iff hready hn (hready.live_of_linked hn hneeds hlinked) hlinked,
      and_iff_right hlinked]
  · -- who listens to none is never told of what it needs
    refine iff_of_false (fun hended => ?_) fun hboth => hlinked hboth.1
    obtain ⟨phase, hrest, -⟩ := h.atRest rfl
    obtain ⟨u, hu⟩ := List.exists_mem_of_ne_nil _ hneeds
    have hfull := h.sound.full (hrest.ended_iff_last.mpr hended) u (needs_eq hn ▸ hu)
    exact hlinked (hready.wired.linked (h.sound.listens hready.wired h.halted hfull.2))

/-- What all chunks of some nodes make, joined node by node. -/
theorem joined_flatMap (needs : List Nat) (sent : Nat → List Payload) :
    Payload.joined (needs.flatMap sent) = needs.flatMap fun u => Payload.joined (sent u) :=
  List.flatMap_assoc

/-- In a run that comes to its end a concatenation that needs each of its providers once, and is
linked to them, sends one chunk if all of them have ended and have sent something: the bytes
that the first of them sent, then those of the second, and so on. It then ends as well. If it is
not linked, or one of them has not ended or has sent nothing, it does not end and sends nothing. -/
theorem concatenation_joins_providers (h : g.Built) (inputs : Inputs) (world : W)
    (hok : (g.run inputs world).2 = .ok ()) {m : Nat} {n : Node W} (hn : g.nodes[m]? = some n)
    (hc : n.component = Component.concatenate.aggregator) (hneeds : n.needs ≠ [])
    (hnodup : n.needs.Nodup) :
    (((wiringOf g.nodes).Linked m ∧ ∀ u ∈ n.needs,
        Ended (g.journal inputs world) u ∧ sentBy (g.journal inputs world) u ≠ []) →
      Ended (g.journal inputs world) m ∧
        (∀ u ∈ n.needs, ∀ chunk ∈ sentBy (g.journal inputs world) u,
          chunk.bytes?.isSome = true) ∧
        sentBy (g.journal inputs world) m = [.bytes (n.needs.flatMap fun u =>
          Payload.joined (sentBy (g.journal inputs world) u))]) ∧
    (¬ ((wiringOf g.nodes).Linked m ∧ ∀ u ∈ n.needs,
        Ended (g.journal inputs world) u ∧ sentBy (g.journal inputs world) u ≠ []) →
      ¬ Ended (g.journal inputs world) m ∧ sentBy (g.journal inputs world) m = []) := by
  obtain ⟨all, r₁, r₂, r₃, ends, hcourse, -, hjournal, hbracket⟩ := course_of_ok h.ready hok
  simp only [hjournal, ended_append_brackets hbracket, sentBy_append hbracket]
  have hiff := hcourse.ended_iff_linked h.ready hn hneeds
  rw [← hiff]
  refine ⟨fun hended => ?_, fun hopen => ?_⟩
  · obtain ⟨hbytes, hsent⟩ := hcourse.joins h.ready hn hc hneeds hnodup hended
    refine ⟨hended, fun u hu chunk hchunk => ?_, hsent.trans (by rw [joined_flatMap])⟩
    exact hbytes chunk (List.mem_flatMap.mpr ⟨u, hu, hchunk⟩)
  · exact ⟨hopen, hcourse.joins_nothing h.ready hn hc hneeds hopen⟩

/-! ## Two words in the order of the needs -/

def closes : Act → Bool
  | .lastChunk _ => true
  | _ => false

/-- Whether each of the nodes ends and sends something can be read off a journal. -/
theorem ended_and_sent {j : List JournalEntry} {needs : List Nat}
    (h : (needs.all fun u => (actsAt j u).any closes && !(sentBy j u).isEmpty) = true) :
    ∀ u ∈ needs, Ended j u ∧ sentBy j u ≠ [] := by
  intro u hu
  have hboth := List.all_eq_true.mp h u hu
  simp only [Bool.and_eq_true, Bool.not_eq_eq_eq_not, Bool.not_true, List.isEmpty_eq_false_iff]
    at hboth
  obtain ⟨hclosed, hsent⟩ := hboth
  obtain ⟨act, hmem, hcloses⟩ := List.any_eq_true.mp hclosed
  unfold closes at hcloses
  split at hcloses
  · exact ⟨⟨_, hmem⟩, hsent⟩
  · cases hcloses

/-- A concatenation of the second root and the first. -/
def reversed : Graph Unit :=
  ⟨"crossed", [{ Node.new "a" spelling [] with listeners := [2] },
    { Node.new "b" spelling [] with listeners := [2] },
    Node.new "c" Component.concatenate.aggregator [1, 0]]⟩

theorem reversed_built : reversed.Built :=
  .add pair_built (show pair.add "c" Component.concatenate.aggregator [1, 0] =
    .ok (2, reversed) from rfl)

/-- The first root sends "x" and "y", the second "z" between the two; the concatenation, which
needs the second root before the first, sends "zxy". -/
theorem words_in_order_of_needs :
    (reversed.run twoWords ()).2 = .ok () ∧
      sentBy (reversed.journal twoWords ()) 2 = [.bytes [0x7A, 0x78, 0x79]] := by
  have hok : (reversed.run twoWords ()).2 = .ok () := eq_ok_of_isDone (by decide +kernel)
  obtain ⟨hall, -⟩ := concatenation_joins_providers reversed_built twoWords () hok
    (m := 2) rfl rfl (by decide) (by decide)
  have hlinked : (wiringOf reversed.nodes).Linked 2 :=
    (reversed_built.ready.wired.joined 2).resolve_right fun hcut => hcut 0 (by decide)
  have hprovider : ∀ u ∈ [1, 0], Ended (reversed.journal twoWords ()) u ∧
      sentBy (reversed.journal twoWords ()) u ≠ [] := ended_and_sent (by decide +kernel)
  obtain ⟨-, -, hsent⟩ := hall ⟨hlinked, hprovider⟩
  refine ⟨hok, hsent.trans ?_⟩
  have hbytes : ([1, 0].flatMap fun u =>
      Payload.joined (sentBy (reversed.journal twoWords ()) u)) = [0x7A, 0x78, 0x79] := by
    decide +kernel
  exact congrArg (fun bs => [Payload.bytes bs]) hbytes

/-- The same with the concatenation disconnected. -/
def unlinked : Graph Unit :=
  ⟨"crossed", [Node.new "a" spelling [], Node.new "b" spelling [],
    Node.new "c" Component.concatenate.aggregator [1, 0]]⟩

/-- A concatenation that was disconnected keeps its needs, but sends nothing, though its providers
have ended and have sent something. -/
theorem disconnected_concatenation_sends_nothing :
    reversed.disconnect 2 = .ok unlinked ∧ unlinked.Built ∧
      (unlinked.run twoWords ()).2 = .ok () ∧
      ∃ n, unlinked.nodes[2]? = some n ∧ n.component = Component.concatenate.aggregator ∧
        n.needs = [1, 0] ∧
        (∀ u ∈ n.needs, Ended (unlinked.journal twoWords ()) u ∧
          sentBy (unlinked.journal twoWords ()) u ≠ []) ∧
        sentBy (unlinked.journal twoWords ()) 2 = [] := by
  have hdone : reversed.disconnect 2 = .ok unlinked := rfl
  refine ⟨hdone, .disconnect reversed_built hdone, eq_ok_of_isDone (by decide +kernel), _, rfl, rfl,
    rfl, ended_and_sent (by decide +kernel), by decide +kernel⟩

end Graph

end FeatureGraph
