-- Encoders and writers in a run. An encoder that has ended has sent what it
-- makes of all that its provider sent, and a writer that was called for its
-- end holds the bytes of all that its provider sent.
import FeatureGraph.Proofs.Component.Storing
import FeatureGraph.Proofs.Graph.Calls
import FeatureGraph.Proofs.Run.Completion

namespace FeatureGraph

variable {W : Type}

/-! ## Before the roots are driven -/

namespace Run

variable {n n' : Node W} {c : Component W} {acts : List Act}

/-- A component that keeps its state when it is acquired begins in its first state. -/
theorem Opened.holds (h : Opened n n' acts) (hfresh : n.Fresh) (hc : n.component = c)
    (hacquire : ∀ s w, (c.acquire s w).2.1 = s) : Holds n' c c.start := by
  have hholds := holds_of_fresh hfresh hc
  cases h with
  | untouched => exact hholds
  | tried w =>
    obtain ⟨n, rfl⟩ := hholds.exists_eq
    obtain ⟨acquired, heq⟩ := acquire_eq { n with component := c, state := c.start } w
    rw [heq]
    exact ⟨rfl, heq_of_eq (hacquire c.start w)⟩

/-- A writer that was acquired begins with an open session. -/
theorem Opened.holds_storing {n n' : Node Workspace} {d : Component.Destination}
    (h : Opened n n' acts) (hfresh : n.Fresh) (hc : n.component = Component.storing d)
    (hacquired : n'.acquired = true) : Holds n' (Component.storing d) (Component.opened d) := by
  refine ⟨h.alike.component.trans hc, ?_⟩
  rcases h.acquired hfresh.acquired with ⟨-, hacts⟩ | ⟨hfalse, -⟩
  · cases h with
    | untouched => cases hacts
    | tried w =>
      simp only [List.cons.injEq, Act.acquire.injEq, and_true, acquire_result] at hacts
      obtain ⟨acquired, heq⟩ := acquire_eq n w
      rw [heq]
      obtain ⟨key, component, state, cache, needs, listeners, finalized, enqueued, pruned,
        completed, acquired⟩ := n
      subst hc
      exact heq_of_eq ((Component.storing_acquire state w).2 hacts)
  · rw [hfalse] at hacquired
    cases hacquired

end Run

/-! ## In a run -/

/-- Without failures the bytes that a writer took are those it worked on. -/
theorem flatMap_written {acts : List Act}
    (h : ∀ data e, Act.transform data (.error e) ∉ acts) :
    acts.flatMap Act.written =
      (acts.filterMap Act.worked?).flatMap fun data => data.bytes?.getD [] := by
  induction acts with
  | nil => rfl
  | cons act rest ih =>
    have hrest := ih fun data e hmem => h data e (List.mem_cons_of_mem _ hmem)
    rw [List.flatMap_cons, hrest]
    cases act with
    | transform data result =>
      cases result with
      | error e => exact absurd List.mem_cons_self (h data e)
      | ok out => simp [Act.written, Act.worked?]
    | acquire | enqueue | dequeue | lastChunk | emit | release =>
      rw [List.filterMap_cons_none rfl]
      rfl

theorem Silent.worked {acts : List Act} (h : Silent acts) : acts.filterMap Act.worked? = [] := by
  refine List.filterMap_eq_nil_iff.mpr fun act hact => ?_
  have := h act hact
  cases act <;> simp_all [Act.isBracket, Act.worked?]

theorem Component.encoding_plain (e : Encoder) : (Component.encoding (W := W) e).Plain :=
  ⟨fun _ _ _ _ _ => rfl, fun _ _ _ _ => rfl⟩

theorem Component.storing_plain (d : Component.Destination) : (Component.storing d).Plain :=
  ⟨fun _ _ _ _ _ => rfl, fun _ _ _ _ => rfl⟩

theorem Complete.append {net : Wiring} {j ends : List JournalEntry} {m : Nat}
    (h : Complete net j m) (hends : ∀ e ∈ ends, e.act.isBracket = true) :
    Complete net (j ++ ends) m := by
  induction h with
  | intro hsealed _ hgiven ih =>
    refine .intro ⟨?_, ?_, fun k hk => ?_⟩ ih fun u hu => ?_
    · obtain ⟨out, hout⟩ := hsealed.ended
      exact ⟨out, by rw [actsAt_append]; exact List.mem_append_left _ hout⟩
    · rw [AllSent, outputOf_append hends, sentBy_append hends]
      exact hsealed.allSent
    · rw [received_append hends, due, sentBy_append hends]
      exact hsealed.balanced k hk
    · rw [received_append hends, sentBy_append hends]
      exact hgiven u hu

namespace Graph.Course

variable {g : Graph W} {world : W} {result : Except GraphError Unit} {all : Bool}
  {r₁ r₂ r₃ : Run W} {m u : Nat} {n : Node W}

/-- The driving at a node, as a run of its component. -/
theorem drives (h : g.Course world result all r₁ r₂ r₃) {c : Component W} {s : c.State}
    {n₁ : Node W} (hn₁ : r₁.nodes[m]? = some n₁) (hs : Run.Holds n₁ c s) :
    ∃ n₂ s' acts, r₂.nodes[m]? = some n₂ ∧ Run.Holds n₂ c s' ∧ r₂.acts m = r₁.acts m ++ acts ∧
      c.Runs s acts s' ∧ outputOf r₂.journal.reverse m = acts.flatMap Act.output ∧
      workedAt r₂.journal.reverse m = acts.filterMap Act.worked? ∧
      ∀ result, Act.lastChunk result ∈ r₂.acts m ↔ Act.lastChunk result ∈ acts := by
  obtain ⟨n₂, s', acts, hn₂, hholds, hacts, hruns⟩ := h.steps.runs hn₁ hs
  have hsilent := h.opens.silent m
  refine ⟨n₂, s', acts, hn₂, hholds, hacts, hruns, ?_, ?_, fun result => ?_⟩
  · rw [outputOf, show actsAt r₂.journal.reverse m = _ from hacts, List.flatMap_append,
      hsilent.output, List.nil_append]
  · rw [workedAt, show actsAt r₂.journal.reverse m = _ from hacts, List.filterMap_append,
      hsilent.worked, List.nil_append]
  · rw [hacts, List.mem_append]
    refine ⟨fun hmem => hmem.resolve_left fun hmem => ?_, Or.inr⟩
    have := hsilent _ hmem
    cases this

/-- A plain node with one provider that was called for its end has worked on all that the
provider sent. -/
theorem worked (h : g.Course world result all r₁ r₂ r₃) (hready : g.Ready)
    (hn : g.nodes[m]? = some n) (hplain : n.component.Plain) (hneeds : n.needs = [u])
    {last : Except ComponentError Output} (hlast : Act.lastChunk last ∈ r₂.acts m) :
    workedAt r₂.journal.reverse m = sentBy r₂.journal.reverse u := by
  have hone : (wiringOf g.nodes).needs m = [u] := by simp [wiringOf, hn, hneeds]
  exact h.sound.workedAt_of_last hready.wired h.halted hone hlast (h.honest hready hn hplain)

/-- An encoder that has ended has sent all that it makes of what its provider sent. -/
theorem encoded (h : g.Course world result all r₁ r₂ r₃) (hready : g.Ready)
    (hn : g.nodes[m]? = some n) {e : Encoder} (hc : n.component = Component.encoding e)
    (hneeds : n.needs = [u]) (hsealed : Sealed (wiringOf g.nodes) r₂.journal.reverse m) :
    ∃ runs, sentBy r₂.journal.reverse m = runs.map Payload.bytes ∧
      e.runsOf (sentBy r₂.journal.reverse u) e.start = .ok runs := by
  obtain ⟨n₁, -, hn₁, hopened, -, -, -⟩ := h.node hn
  have hfresh := hready.fresh n (List.mem_of_getElem? hn)
  obtain ⟨-, s, acts, -, -, hacts, hruns, hout, hworked, hiff⟩ :=
    h.drives hn₁ (hopened.holds hfresh hc fun _ _ => rfl)
  obtain ⟨out, hlast⟩ := hsealed.ended
  obtain ⟨before, after, rfl⟩ := List.append_of_mem ((hiff _).mp hlast)
  have hsplit : r₂.acts m = (r₁.acts m ++ before) ++ .lastChunk (.ok out) :: after := by
    rw [hacts, List.append_assoc]
  obtain ⟨hsmooth, hopen, hafter⟩ := h.sound.split_of_last h.halted hsplit
  obtain ⟨runs, hruns, hbytes⟩ := Component.encoding_ended hruns rfl
    (fun act hact => hsmooth act (List.mem_append_right _ hact))
    (fun result hmem => hopen result (List.mem_append_right _ hmem)) hafter
  refine ⟨runs, ?_, ?_⟩
  · have hsent := hsealed.allSent
    rw [AllSent, hout, hruns, Output.ofBytes] at hsent
    have hinj : Function.Injective (Except.ok : Payload → Except ComponentError Payload) :=
      fun _ _ h => by cases h; rfl
    refine hinj.list_map ?_
    rw [← hsent, List.map_map]
    rfl
  · rw [← h.worked hready hn (hc ▸ Component.encoding_plain e) hneeds hlast, hworked]
    exact hbytes

end Graph.Course

/-- A writer that a run acquired: its session is open when the driving is over, and finished if
it was called for its end. Then it holds the bytes of all that its provider sent. -/
theorem Graph.Course.session {g : Graph Workspace} {world : Workspace}
    {result : Except GraphError Unit} {all : Bool} {r₁ r₂ r₃ : Run Workspace} {m u : Nat}
    {n n₂ : Node Workspace} {d : Component.Destination}
    (h : g.Course world result all r₁ r₂ r₃) (hready : g.Ready) (hn : g.nodes[m]? = some n)
    (hc : n.component = Component.storing d) (hneeds : n.needs = [u])
    (hn₂ : r₂.nodes[m]? = some n₂) (hacquired : n₂.acquired = true) :
    ∃ s writer, Run.Holds n₂ (Component.storing d) s ∧ s.writer = some writer ∧
      writer.key = d.key ∧ writer.contentType = d.contentType ∧
      (s.finished = true ↔ ∃ last, Act.lastChunk last ∈ r₂.acts m) ∧
      (s.finished = true → writer.data =
        (sentBy r₂.journal.reverse u).flatMap fun data => data.bytes?.getD []) := by
  obtain ⟨n₁, n₂', hn₁, hopened, hn₂', -, hsame⟩ := h.node hn
  rw [hn₂] at hn₂'
  cases hn₂'
  have hfresh := hready.fresh n (List.mem_of_getElem? hn)
  have hholds := hopened.holds_storing hfresh hc (hsame ▸ hacquired)
  obtain ⟨n₂', s, acts, hn₂', hholds, hacts, hruns, -, hworked, hiff⟩ := h.drives hn₁ hholds
  rw [hn₂] at hn₂'
  cases hn₂'
  obtain ⟨writer, hwriter, hkey, htype, hdata, hfinished⟩ := Component.storing_runs hruns rfl
  have hended : s.finished = true ↔ ∃ last, Act.lastChunk last ∈ r₂.acts m := by
    rw [hfinished]
    simp [Component.opened, hiff]
  refine ⟨s, writer, hholds, hwriter, hkey, htype, hended, fun hdone => ?_⟩
  obtain ⟨last, hlast⟩ := hended.mp hdone
  rw [← h.worked hready hn (hc ▸ Component.storing_plain d) hneeds hlast, hworked,
    ← flatMap_written, hdata]
  · rfl
  · intro data e hmem
    obtain ⟨before, after, rfl⟩ := List.append_of_mem ((hiff _).mp hlast)
    have hsplit : r₂.acts m = (r₁.acts m ++ before) ++ .lastChunk last :: after := by
      rw [hacts, List.append_assoc]
    obtain ⟨hsmooth, -, hafter⟩ := h.sound.split_of_last h.halted hsplit
    rcases List.mem_append.mp hmem with hmem | hmem
    · have := hsmooth _ (List.mem_append_right _ hmem)
      cases this
    · rcases List.mem_cons.mp hmem with heq | hmem
      · cases heq
      · have := hafter _ hmem
        cases this

end FeatureGraph
