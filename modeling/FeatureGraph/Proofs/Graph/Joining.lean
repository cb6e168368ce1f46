-- What nodes have sent in a run that comes to its end. A root has sent what
-- it made of its input. A node that hands on what it gets has sent nothing if
-- its provider has not. A concatenation that has ended has sent one chunk: all
-- that its first provider sent, then all that its second sent, and so on; one
-- that has not ended has sent nothing.
import FeatureGraph.Proofs.Component.Concatenate
import FeatureGraph.Proofs.Graph.Chains
import FeatureGraph.Proofs.Graph.Ending

namespace FeatureGraph

variable {W : Type}

theorem map_ok_injective {l l' : List Payload}
    (h : l.map (Except.ok : Payload → Except ComponentError Payload) = l'.map .ok) : l = l' :=
  List.map_injective_iff.mpr (fun _ _ h => Except.ok.inj h) h

namespace Graph.Course

variable {g : Graph W} {world : W} {result : Except GraphError Unit} {all : Bool}
  {r₁ r₂ r₃ : Run W} {m u : Nat} {n : Node W}

theorem needs_eq (hn : g.nodes[m]? = some n) : (wiringOf g.nodes).needs m = n.needs := by
  simp [wiringOf, hn]

/-- What comes in comes at a place of the needs. -/
theorem place_lt (h : g.Course world result all r₁ r₂ r₃) (hready : g.Ready)
    (hn : g.nodes[m]? = some n) (hneeds : n.needs ≠ []) {input : Nat} {data : Payload}
    (hmem : Act.enqueue input data ∈ r₂.acts m) : input < n.needs.length := by
  rcases h.halted.placedAt hmem input data rfl with hroot | ⟨u, hu, rfl⟩
  · exact absurd ((needs_eq hn).symm.trans hroot) hneeds
  · have hmem := hready.wired.mem_needs hu
    rw [needs_eq hn] at hmem ⊢
    exact List.idxOf_lt_length_of_mem hmem

/-- A node that was called for its end has not failed before. -/
theorem smooth_of_ended (h : g.Course world result all r₁ r₂ r₃)
    (hended : Ended r₂.journal.reverse m) (data : Payload) (e : ComponentError) :
    Act.transform data (.error e) ∉ r₂.acts m := by
  obtain ⟨last, hlast⟩ := hended
  obtain ⟨before, after, heq⟩ := List.append_of_mem hlast
  obtain ⟨hsmooth, -, hafter⟩ := h.sound.split_of_last h.halted heq
  rw [show r₂.acts m = _ from heq, List.mem_append, List.mem_cons]
  rintro (hmem | hmem | hmem)
  · cases hsmooth _ hmem
  · cases hmem
  · cases hafter _ hmem

/-- What a node that has ended took in at a place is what the provider of that place sent. -/
theorem receivedAt_of_ended (h : g.Course world (.ok ()) all r₁ r₂ r₃) (hready : g.Ready)
    (hn : g.nodes[m]? = some n) (hnodup : n.needs.Nodup) (hended : Ended r₂.journal.reverse m)
    {i : Nat} (hi : n.needs[i]? = some u) :
    receivedAt r₂.journal.reverse m i = sentBy r₂.journal.reverse u := by
  obtain ⟨hlt, heq⟩ := List.getElem?_eq_some_iff.mp hi
  have hplace : n.needs.idxOf u = i := heq ▸ hnodup.idxOf_getElem i hlt
  obtain ⟨phase, hrest, -⟩ := h.atRest rfl
  have hmem : u ∈ (wiringOf g.nodes).needs m := needs_eq hn ▸ List.mem_of_getElem? hi
  have hgiven := (h.sound.given hready.wired h.halted (hrest.ended_iff_last.mpr hended) hmem).2
  rw [received, needs_eq hn, hplace] at hgiven
  have hcount : n.needs.count u = 1 := List.count_eq_one_of_mem hnodup (List.mem_of_getElem? hi)
  simpa [hcount, Run.ledger] using hgiven

/-! ## Roots -/

/-- What a node's component answers to its last call. -/
theorem last_of_component (h : g.Course world result all r₁ r₂ r₃) (hn : g.nodes[m]? = some n)
    {last : Except ComponentError Output} (hmem : Act.lastChunk last ∈ r₂.acts m) :
    ∃ s w, last = (n.component.lastChunk s w).1 := by
  obtain ⟨n₁, -, hn₁, hopened, -, -, -⟩ := h.node hn
  have hc := hopened.alike.component
  have hholds : Run.Holds n₁ n₁.component n₁.state := ⟨rfl, HEq.rfl⟩
  obtain ⟨-, _, acts, -, -, -, hruns, -, -, hiff⟩ := h.drives hn₁ hholds
  obtain ⟨before, after, heq⟩ := List.append_of_mem ((hiff last).mp hmem)
  obtain ⟨s₁, s₂, -, hdoes⟩ := hruns.at heq
  rw [← hc]
  generalize hact : Act.lastChunk last = act at hdoes
  cases hdoes with
  | lastChunk _ w => exact ⟨s₁, w, Act.lastChunk.inj hact⟩
  | enqueue | dequeue | transform | emit => cases hact

/-- A root that takes part has ended, and has sent what it made of its input. -/
theorem sent_of_root (h : g.Course world (.ok ()) all r₁ r₂ r₃)
    (hn : g.nodes[m]? = some n) (hroot : n.isRoot = true) (hlive : n.pruned = false)
    (hlast : ∀ s w, (n.component.lastChunk s w).1 = .ok []) {data : Payload} {out : List Payload}
    (hmem : Act.transform data (.ok (Output.ofPayloads out)) ∈ r₂.acts m) :
    Ended r₂.journal.reverse m ∧ sentBy r₂.journal.reverse m = out := by
  obtain ⟨phase, hrest, hover, hphase⟩ := h.atRest rfl
  have hcalls := (hrest.roots m (by
    simpa [Wiring.Root, needs_eq hn, Node.isRoot] using hroot)).calls
  rw [hover m n hn hroot hlive] at hcalls
  obtain ⟨data', closing, hclosing, hwork⟩ := hcalls.of_ended rfl
  obtain ⟨last, hattempt⟩ := hclosing
  have hended : Act.lastChunk last ∈ r₂.acts m := by
    have hin : Act.lastChunk last ∈ workAt r₂.ledger.journal m := by
      rw [hwork]
      simp
    exact (List.mem_filter.mp hin).1
  obtain ⟨s, w, rfl⟩ := h.last_of_component hn hended
  rw [hlast] at hwork hended
  refine ⟨⟨_, hended⟩, map_ok_injective ((AtRest.allSent hrest hphase m).1.symm.trans ?_)⟩
  have hin : Act.transform data (.ok (Output.ofPayloads out)) ∈ workAt r₂.ledger.journal m :=
    List.mem_filter.mpr ⟨hmem, rfl⟩
  rw [outputOf, ← flatMap_output_work]
  change (workAt r₂.ledger.journal m).flatMap Act.output = _
  rw [hwork] at hin ⊢
  cases hattempt with
  | waits => simp at hin
  | works got result =>
    simp only [List.mem_cons, List.mem_append, reduceCtorEq, List.not_mem_nil, or_false, false_or,
      Act.transform.injEq] at hin
    obtain ⟨rfl, rfl⟩ := hin
    simp [Act.output, Output.ofPayloads]

/-! ## Nodes that hand on what they get -/

section Plain

variable (h : g.Course world (.ok ()) all r₁ r₂ r₃) (hready : g.Ready) (hn : g.nodes[m]? = some n)
  (hplain : n.component.Plain) (hneeds : n.needs = [u]) (hlinked : (wiringOf g.nodes).Linked m)

include h hready hn hplain hneeds hlinked

/-- A plain node has worked on all that its one provider sent. -/
theorem worked_at_rest : workedAt r₂.journal.reverse m = sentBy r₂.journal.reverse u := by
  obtain ⟨phase, hrest, -, hphase⟩ := h.atRest rfl
  have hone : (wiringOf g.nodes).needs m = [u] := (needs_eq hn).trans hneeds
  have hm : m ∈ (wiringOf g.nodes).listeners u :=
    List.count_pos_iff.mp (hlinked u ▸ List.count_pos_iff.mpr (by simp [hone]))
  have hreceived := (AtRest.allSent hrest hphase u).2 m hm
  have htidy : Tidy (workAt r₂.journal.reverse m) := hrest.tidy (h.honest hready hn hplain)
  rw [workedAt_eq, htidy.worked, ← takenAt_eq, h.halted.takenAt_eq hready.wired hone]
  simpa [due, hone, Run.ledger] using hreceived

/-- If its provider has sent nothing it has worked on nothing, and sent nothing. -/
theorem silent_of_silent (hlive : n.pruned = false) (hu : sentBy r₂.journal.reverse u = []) :
    (∀ data result, Act.transform data result ∉ r₂.acts m) ∧ sentBy r₂.journal.reverse m = [] := by
  have hnothing : ∀ data result, Act.transform data result ∉ r₂.acts m := fun data result hmem => by
    have hworked := h.worked_at_rest hready hn hplain hneeds hlinked
    rw [hu, workedAt, List.filterMap_eq_nil_iff] at hworked
    cases hworked _ hmem
  refine ⟨hnothing, ?_⟩
  obtain ⟨phase, hrest, -, hphase⟩ := h.atRest rfl
  have hsent : outputOf r₂.journal.reverse m = _ := (AtRest.allSent hrest hphase m).1
  have hout : outputOf r₂.journal.reverse m = [] := List.flatMap_eq_nil_iff.mpr fun act hact => by
    cases act with
    | transform data result => exact absurd hact (hnothing data result)
    | lastChunk last =>
      have hgiven := (h.ended_iff hready hn hlive hlinked).mp ⟨last, hact⟩ u (by simp [hneeds])
      exact absurd hu hgiven.2
    | acquire | enqueue | dequeue | emit | release => rfl
  rw [hout] at hsent
  exact List.map_eq_nil_iff.mp hsent.symm

end Plain

/-! ## Concatenations -/

section Concatenation

variable (h : g.Course world (.ok ()) all r₁ r₂ r₃) (hready : g.Ready)
  (hn : g.nodes[m]? = some n) (hc : n.component = Component.concatenate.aggregator)
  (hneeds : n.needs ≠ [])

include h hready hn hc hneeds

/-- The driving at a concatenation, and the life that it is. -/
theorem concatenates : ∃ s acts, (Component.concatenate (W := W)).aggregator.Runs
      Component.concatenate.aggregator.start acts s ∧ acts ⊆ r₂.acts m ∧
    (sentBy r₂.journal.reverse m).map .ok = acts.flatMap Act.output ∧
    (∀ i, receivedAt r₂.journal.reverse m i = acts.filterMap (Act.received? i)) ∧
    Life (r₂.ledger.ended m) (acts.filter Act.isWork) := by
  obtain ⟨n₁, -, hn₁, hopened, -, -, -⟩ := h.node hn
  have hfresh := hready.fresh n (List.mem_of_getElem? hn)
  obtain ⟨-, s, acts, -, -, hacts, hruns, hout, -, -⟩ :=
    h.drives hn₁ (hopened.holds hfresh hc fun _ _ => rfl)
  have hsilent := h.opens.silent m
  obtain ⟨phase, hrest, -, hphase⟩ := h.atRest rfl
  have hroot : ¬ (wiringOf g.nodes).Root m := fun hroot =>
    hneeds ((needs_eq hn).symm.trans hroot)
  have hlife := (hrest.quiet m (Nat.zero_le m) hroot).life
  have hwork : workAt r₂.ledger.journal m = acts.filter Act.isWork := by
    rw [workAt, show actsAt r₂.ledger.journal m = _ from hacts, List.filter_append, hsilent.work,
      List.nil_append]
  refine ⟨s, acts, hruns, ?_, ?_, fun i => ?_, hwork ▸ hlife⟩
  · rw [hacts]
    exact List.subset_append_right ..
  · rw [← hout]
    exact (AtRest.allSent hrest hphase m).1.symm
  · rw [receivedAt, show actsAt r₂.journal.reverse m = _ from hacts, List.filterMap_append,
      hsilent.received, List.nil_append]

/-- A concatenation that has ended has sent all that its providers sent, one provider after the
other, in one chunk; and they sent nothing but bytes. -/
theorem joins (hnodup : n.needs.Nodup) (hended : Ended r₂.journal.reverse m) :
    (∀ chunk ∈ n.needs.flatMap (sentBy r₂.journal.reverse), chunk.bytes?.isSome = true) ∧
      sentBy r₂.journal.reverse m =
        [.bytes (Payload.joined (n.needs.flatMap (sentBy r₂.journal.reverse)))] := by
  obtain ⟨s, acts, hruns, hsub, hsent, hreceived, hlife⟩ := concatenates h hready hn hc hneeds
  obtain ⟨phase, hrest, -⟩ := h.atRest rfl
  rw [hrest.ended_iff_last.mpr hended] at hlife
  have hout := Component.concatenate_closed hruns hlife
    (fun data e hmem => h.smooth_of_ended hended data e (hsub hmem))
    fun input data hmem => h.place_lt hready hn hneeds (hsub hmem)
  have hparts : (List.range n.needs.length).flatMap (fun i => acts.filterMap (Act.received? i)) =
      n.needs.flatMap (sentBy r₂.journal.reverse) := by
    rw [flatMap_eq_range _ (Nat.le_refl n.needs.length)]
    refine List.flatMap_congr fun i hi => ?_
    have hu := List.getElem?_eq_getElem (List.mem_range.mp hi)
    rw [← hreceived, h.receivedAt_of_ended hready hn hnodup hended hu, hu]
    rfl
  rw [hparts] at hout
  exact ⟨hout.1, map_ok_injective (hsent.trans hout.2)⟩

theorem joins_nothing (hopen : ¬ Ended r₂.journal.reverse m) :
    sentBy r₂.journal.reverse m = [] := by
  obtain ⟨s, acts, hruns, -, hsent, -, hlife⟩ := concatenates h hready hn hc hneeds
  obtain ⟨phase, hrest, -⟩ := h.atRest rfl
  rw [Bool.eq_false_iff.mpr fun hended => hopen (hrest.ended_iff_last.mp hended)] at hlife
  rw [Component.concatenate_open hruns hlife, List.map_eq_nil_iff] at hsent
  exact hsent

end Concatenation

end Graph.Course

end FeatureGraph
