-- Why the driving stops. It stops at the first thing that fails: a call that
-- answers with a failure, or a failure among the chunks that a call has put
-- out, when it is its turn to be sent. If it does not stop nothing has failed
-- at all, for every chunk that was put out was sent.
import FeatureGraph.Proofs.Run.Bracket
import FeatureGraph.Proofs.Run.Driving

namespace FeatureGraph

variable {W : Type}

/-- The failure of a call. -/
def Act.failure? : Act → Option ComponentError
  | .transform _ (.error e) | .lastChunk (.error e) => some e
  | _ => none

/-- The failure at a node that comes first in a journal: of its last call, or among the chunks
that a call of the node put out. No call before it has failed. -/
inductive StoppedBy (j : List JournalEntry) (id : Nat) (cause : ComponentError) : Prop where
  | call {before : List JournalEntry} {act : Act} (hlast : j = before ++ [⟨id, act⟩])
      (hact : act.failure? = some cause) (hbefore : ∀ x ∈ before, x.act.failure? = none)
  | chunk {act : Act} {front rest : Output} (hact : act ∈ actsAt j id)
      (hout : act.output = front ++ .error cause :: rest) (hfront : ∀ c ∈ front, c.isOk = true)
      (hcalls : ∀ x ∈ j, x.act.failure? = none)

/-- No call has failed, and no call has put out a failure. -/
def Smooth (j : List JournalEntry) : Prop :=
  ∀ x ∈ j, x.act.failure? = none ∧ ∀ c ∈ x.act.output, c.isOk = true

namespace Run

/-! ## What is yet to be sent -/

/-- No call has failed so far, and if one has put out a failure then it is among these chunks,
which nodes have yet to send. -/
structure Owing (owed : List (Nat × Output)) (r : Run W) : Prop where
  calls : ∀ x ∈ r.journal, x.act.failure? = none
  origin : ∀ s ∈ owed, s.2 ≠ [] → s.1 < r.nodes.length ∧ ∃ act ∈ r.acts s.1, ∃ front : Output,
    act.output = front ++ s.2 ∧ ∀ c ∈ front, c.isOk = true
  failures : ∀ x ∈ r.journal, ∀ e, .error e ∈ x.act.output → ∃ s ∈ owed, .error e ∈ s.2

/-- The run has stopped with the first failure. -/
def Halt (e : GraphError) (r : Run W) : Prop :=
  ∃ id n cause, r.nodes[id]? = some n ∧ e = .failed n.key cause ∧
    StoppedBy r.journal.reverse id cause

/-- From every run that owes these chunks the stage comes to one that owes what is left, or to the
first failure. -/
def Sends {α : Type} (owed : List (Nat × Output)) (p : Stage W α)
    (left : α → List (Nat × Output)) : Prop :=
  ∀ r, Owing owed r → p.Settles r (fun a r => Owing (left a) r) Halt

section Owing

variable {owed owed' : List (Nat × Output)} {r : Run W} {id : Nat} {out : Output}

theorem Owing.congr (h : Owing owed r) (hmem : ∀ s, s ∈ owed ↔ s ∈ owed') : Owing owed' r where
  calls := h.calls
  origin := by
    intro s hs
    exact h.origin s ((hmem s).mpr hs)
  failures := by
    intro x hx e he
    obtain ⟨s, hs, hin⟩ := h.failures x hx e he
    exact ⟨s, (hmem s).mp hs, hin⟩

theorem owing_nil_cons : Owing ((id, []) :: owed) r ↔ Owing owed r := by
  constructor
  · intro h
    refine ⟨h.calls, fun s hs => h.origin s (List.mem_cons_of_mem _ hs), fun x hx e he => ?_⟩
    obtain ⟨s, hs, hin⟩ := h.failures x hx e he
    rcases List.mem_cons.mp hs with rfl | hs
    · cases hin
    · exact ⟨s, hs, hin⟩
  · intro h
    refine ⟨h.calls, fun s hs hne => ?_, fun x hx e he => ?_⟩
    · rcases List.mem_cons.mp hs with rfl | hs
      · exact absurd rfl hne
      · exact h.origin s hs hne
    · obtain ⟨s, hs, hin⟩ := h.failures x hx e he
      exact ⟨s, List.mem_cons_of_mem _ hs, hin⟩

/-- A chunk that is sent is owed no more. -/
theorem Owing.sent {chunk : Payload} {rest : Output}
    (h : Owing ((id, .ok chunk :: rest) :: owed) r) : Owing ((id, rest) :: owed) r where
  calls := h.calls
  origin := by
    intro s hs hne
    rcases List.mem_cons.mp hs with rfl | hs
    · obtain ⟨hlt, act, hact, front, hout, hfront⟩ :=
        h.origin (id, .ok chunk :: rest) List.mem_cons_self (by simp)
      refine ⟨hlt, act, hact, front ++ [.ok chunk], by simp [hout], fun c hc => ?_⟩
      rcases List.mem_append.mp hc with hc | hc
      · exact hfront c hc
      · obtain rfl := List.mem_singleton.mp hc
        rfl
    · exact h.origin s (List.mem_cons_of_mem _ hs) hne
  failures := by
    intro x hx e he
    obtain ⟨s, hs, hin⟩ := h.failures x hx e he
    rcases List.mem_cons.mp hs with rfl | hs
    · exact ⟨(id, rest), List.mem_cons_self, by simpa using hin⟩
    · exact ⟨s, List.mem_cons_of_mem _ hs, hin⟩

/-- A failure that is owed stops the run. -/
theorem Owing.halt {cause : ComponentError} {rest : Output}
    (h : Owing ((id, .error cause :: rest) :: owed) r) :
    Halt (.failed ((r.nodes[id]?.map (·.key)).getD "") cause) r := by
  obtain ⟨hlt, act, hact, front, hout, hfront⟩ :=
    h.origin (id, .error cause :: rest) List.mem_cons_self (by simp)
  obtain ⟨n, hn⟩ : ∃ n, r.nodes[id]? = some n := ⟨_, List.getElem?_eq_getElem hlt⟩
  refine ⟨id, n, cause, hn, by simp [hn], .chunk hact hout hfront fun x hx => ?_⟩
  exact h.calls x (List.mem_reverse.mp hx)

/-- What happens at a node without a failure leaves only what it has put out. -/
theorem Owing.add (h : Owing owed r) (nodes : List (Node W)) (w : W) (id : Nat) (act : Act)
    (hlength : nodes.length = r.nodes.length) (hid : act.output ≠ [] → id < r.nodes.length)
    (hact : act.failure? = none) :
    Owing ((id, act.output) :: owed) ⟨nodes, w, ⟨id, act⟩ :: r.journal⟩ where
  calls := List.forall_mem_cons.mpr ⟨hact, h.calls⟩
  origin := by
    intro s hs hne
    rcases List.mem_cons.mp hs with rfl | hs
    · refine ⟨hlength ▸ hid hne, act, ?_, [], rfl, by simp⟩
      rw [acts_note]
      simp
    · obtain ⟨hlt, act', hact', hrest⟩ := h.origin s hs hne
      refine ⟨hlength ▸ hlt, act', ?_, hrest⟩
      rw [acts_note]
      exact List.mem_append_left _ hact'
  failures := by
    intro x hx e he
    rcases List.mem_cons.mp hx with rfl | hx
    · exact ⟨(id, act.output), List.mem_cons_self, he⟩
    · obtain ⟨s, hs, hin⟩ := h.failures x hx e he
      exact ⟨s, List.mem_cons_of_mem _ hs, hin⟩

/-- A run that owes nothing has gone smoothly. -/
theorem Owing.smooth (h : Owing [] r) : Smooth r.journal.reverse := by
  intro x hx
  have hmem := List.mem_reverse.mp hx
  refine ⟨h.calls x hmem, fun c hc => ?_⟩
  cases c with
  | ok data => rfl
  | error e =>
    obtain ⟨s, hs, -⟩ := h.failures x hmem e hc
    cases hs

end Owing

/-! ## Rules -/

section Rules

variable {α β : Type} {owed : List (Nat × Output)} {id : Nat}

theorem sends_pure (a : α) : Sends owed (pure a : Stage W α) fun _ => owed := fun _ h => h

theorem sends_look (absent : α) (f : Node W → α) :
    Sends owed (look id absent f : Stage W α) fun _ => owed := fun _ h => h

theorem sends_bind {p : Stage W α} {f : α → Stage W β} (left : α → List (Nat × Output))
    {left' : β → List (Nat × Output)} (hp : Sends owed p left)
    (hf : ∀ a, Sends (left a) (f a) left') : Sends owed (p >>= f) left' := by
  intro r h
  apply Procedure.settles_bind
  exact (hp r h).mono fun a r h => hf a r h

theorem sends_each {ι : Type} {f : ι → Stage W Unit} (xs : List ι)
    (h : ∀ x ∈ xs, Sends owed (f x) fun _ => owed) :
    Sends owed (Procedure.each f xs) fun _ => owed := fun _ hr =>
  Procedure.settles_each xs (fun x hx r hr => h x hx r hr) hr

theorem sends_note (id : Nat) (chunk : Payload) :
    Sends owed (note id (.emit chunk) : Stage W Unit) fun _ => owed := by
  intro r h
  have hadded := h.add r.nodes r.world id (.emit chunk) rfl (fun hout => absurd rfl hout) rfl
  exact owing_nil_cons.mp hadded

theorem sends_finalize (provider listener : Nat) :
    Sends owed (finalize provider listener : Stage W Unit) fun _ => owed := by
  intro r h
  refine ⟨h.calls, fun s hs hne => ?_, h.failures⟩
  obtain ⟨hlt, hrest⟩ := h.origin s hs hne
  exact ⟨by simpa using hlt, hrest⟩

/-- A call that neither fails nor puts out anything. -/
theorem sends_hook {absent : α} {call : Node W → W → α × Node W × W} {act : Node W → α → Act}
    (hact : ∀ n a, (act n a).failure? = none ∧ (act n a).output = []) :
    Sends owed (hook id absent call act) fun _ => owed := by
  intro r h
  unfold Procedure.Settles hook
  cases hn : r.nodes[id]? with
  | none => exact h
  | some n =>
    obtain ⟨hfailure, hout⟩ := hact n (call n r.world).1
    have hadded := h.add (r.nodes.set id (call n r.world).2.1) (call n r.world).2.2 id _
      (List.length_set ..) (by simp [hout]) hfailure
    rw [hout] at hadded
    exact owing_nil_cons.mp hadded

/-- A call that may fail, what is demanded of it, and what follows if it does not fail. -/
theorem sends_demand {call : Node W → W → Except ComponentError Output × Node W × W}
    (act : Except ComponentError Output → Act) {f : Output → Stage W β}
    {left : β → List (Nat × Output)}
    (hok : ∀ out, (act (.ok out)).failure? = none ∧ (act (.ok out)).output = out)
    (herror : ∀ e, (act (.error e)).failure? = some e)
    (hf : ∀ out, Sends ((id, out) :: owed) (f out) left) :
    Sends owed (do
      let result ← hook id (.ok []) call fun _ result => act result
      let out ← demand id result
      f out : Stage W β) left := by
  intro r h
  apply Procedure.settles_bind
  unfold Procedure.Settles hook
  cases hn : r.nodes[id]? with
  | none => exact hf [] r (owing_nil_cons.mpr h)
  | some n =>
    have hlt : id < r.nodes.length := (List.getElem?_eq_some_iff.mp hn).1
    dsimp only
    cases hresult : (call n r.world).1 with
    | ok out =>
      obtain ⟨hfailure, hout⟩ := hok out
      have hadded := h.add (r.nodes.set id (call n r.world).2.1) (call n r.world).2.2 id _
        (List.length_set ..) (fun _ => hlt) hfailure
      rw [hout] at hadded
      exact hf out _ hadded
    | error e =>
      refine ⟨id, (call n r.world).2.1, e, List.getElem?_set_self hlt, ?_,
        .call (List.reverse_cons ..) (herror e) fun x hx => ?_⟩
      · simp [hlt]
      · exact h.calls x (List.mem_reverse.mp hx)

end Rules

/-! ## Every stage sends what it puts out -/

section Stages

variable {owed : List (Nat × Output)} {receive : Receiver W}

/-- A receiver that sends all that comes of a delivery. -/
def Forwards (receive : Receiver W) : Prop :=
  ∀ owed id data source, Sends owed (receive id data source) fun _ => owed

theorem sends_work (id : Nat) :
    Sends owed (work id : Stage W (Option Output)) fun out => (id, out.getD []) :: owed := by
  refine sends_bind (fun _ => owed) (sends_hook fun _ _ => ⟨rfl, rfl⟩) fun got => ?_
  cases got with
  | none =>
    intro r h
    exact owing_nil_cons.mpr h
  | some data =>
    apply sends_demand (.transform data)
    · exact fun _ => ⟨rfl, rfl⟩
    · exact fun _ => rfl
    · exact fun out => sends_pure (some out)

theorem sends_push (hr : Forwards receive) (id : Nat) (data : Option Payload) :
    Sends owed (push receive id data) fun _ => owed := by
  refine sends_bind _ (sends_look [] _) fun listeners => ?_
  exact sends_each listeners fun l _ => hr owed l data id

/-- A chunk that is sent is owed no more; one that is a failure stops the run. -/
theorem sends_emit (hr : Forwards receive) (id : Nat) (chunk : Except ComponentError Payload)
    (rest : Output) :
    Sends ((id, chunk :: rest) :: owed) (emit receive id chunk) fun _ => (id, rest) :: owed := by
  intro r h
  cases chunk with
  | error cause => exact h.halt
  | ok data =>
    apply Procedure.settles_bind
    refine sends_bind _ (sends_note id data) (fun _ => sends_push hr id (some data)) r h.sent

theorem sends_output (hr : Forwards receive) (id : Nat) (out : Output) :
    Sends ((id, out) :: owed) (Procedure.each (emit receive id) out) fun _ => owed := by
  induction out with
  | nil =>
    intro r h
    exact owing_nil_cons.mp h
  | cons chunk rest ih => exact sends_bind _ (sends_emit hr id chunk rest) fun _ => ih

theorem sends_complete (hr : Forwards receive) (id : Nat) :
    Sends owed (complete receive id) fun _ => owed := by
  refine sends_bind _ (sends_look true _) fun ended => ?_
  split
  · exact sends_pure ()
  · apply sends_demand .lastChunk
    · exact fun _ => ⟨rfl, rfl⟩
    · exact fun _ => rfl
    intro out
    refine sends_bind _ (sends_output hr id out) fun _ => ?_
    refine sends_bind _ (sends_look [] _) fun listeners => ?_
    refine sends_bind _ (sends_each listeners fun l _ => sends_finalize id l) fun _ => ?_
    exact sends_push hr id none

theorem sends_deliver (hr : Forwards receive) : Forwards (deliver receive) := by
  intro owed id data source
  rw [deliver_eq]
  refine sends_bind _ (sends_look true _) fun closed => ?_
  split
  · exact sends_pure ()
  · refine sends_bind (fun _ => owed) ?_ fun _ => ?_
    · cases data with
      | none => exact sends_pure ()
      | some data =>
        unfold takeIn
        exact sends_hook fun _ _ => ⟨rfl, rfl⟩
    refine sends_bind _ (sends_work id) fun out => ?_
    refine sends_bind _ (sends_output hr id (out.getD [])) fun _ => ?_
    refine sends_bind _ (sends_look false _) fun finalized => ?_
    split
    · exact sends_complete hr id
    · exact sends_pure ()

theorem forwards_receive (depth : Nat) : Forwards (Run.receive (W := W) depth) := by
  induction depth with
  | zero => exact fun _ _ _ _ => sends_pure ()
  | succ depth ih => exact sends_deliver ih

/-! ## The roots -/

theorem sends_begin (hr : Forwards receive) (id : Nat) (data : Payload) :
    Sends owed (begin receive id data) fun out => (id, out.getD []) :: owed := by
  refine sends_bind (fun _ => owed) (sends_hook fun _ _ => ⟨rfl, rfl⟩) fun _ => ?_
  refine sends_bind _ (sends_work id) fun out => ?_
  cases out with
  | some out => exact sends_pure (some out)
  | none => exact sends_bind _ (sends_complete hr id) fun _ _ h => h

theorem sends_beginAll (hr : Forwards receive) (inputs : List (Nat × Payload)) :
    Sends owed (beginAll receive inputs) fun streams => streams ++ owed := by
  induction inputs generalizing owed with
  | nil => exact fun _ h => h
  | cons s rest ih =>
    obtain ⟨id, data⟩ := s
    refine sends_bind _ (sends_begin hr id data) fun out => ?_
    refine sends_bind _ ih fun others => ?_
    cases out with
    | none =>
      intro r h
      have hmoved : Owing ((id, []) :: (others ++ owed)) r := h.congr fun s => by simp; tauto
      exact owing_nil_cons.mp hmoved
    | some out =>
      intro r h
      exact h.congr fun s => by simp; tauto

/-- In a round each root sends its first chunk. -/
theorem sends_round (hr : Forwards receive) (streams : List (Nat × Output)) :
    Sends (streams ++ owed)
      (Procedure.each (take receive) (streams.map fun (id, out) => (id, out.head?)))
      fun _ => leftOver streams ++ owed := by
  induction streams generalizing owed with
  | nil => exact sends_pure ()
  | cons s rest ih =>
    obtain ⟨id, out⟩ := s
    cases out with
    | nil =>
      refine sends_bind (fun _ => rest ++ owed) (fun r h => ?_) fun _ => ih
      exact sends_complete hr id r (owing_nil_cons.mp h)
    | cons chunk out =>
      refine sends_bind (fun _ => rest ++ (id, out) :: owed) (fun r h => ?_) fun _ r h => ?_
      · refine (sends_emit hr id chunk out r h).mono fun _ r h => h.congr fun s => ?_
        simp
        tauto
      · refine (ih r h).mono fun _ r h => h.congr fun s => ?_
        have hleft : leftOver ((id, chunk :: out) :: rest) = (id, out) :: leftOver rest := rfl
        simp only [hleft, List.mem_append, List.mem_cons]
        tauto

theorem sends_turns (hr : Forwards receive) (rounds : Nat) (streams : List (Nat × Output))
    (hrounds : ∀ s ∈ streams, s.2.length < rounds) :
    Sends streams (Procedure.each (take receive) (turns rounds streams)) fun _ => [] := by
  induction rounds generalizing streams with
  | zero =>
    cases streams with
    | nil => exact sends_pure ()
    | cons s rest => exact absurd (hrounds s List.mem_cons_self) (Nat.not_lt_zero _)
  | succ rounds ih =>
    rw [turns, Procedure.each_append]
    have hround : Sends (streams ++ []) _ fun _ => leftOver streams ++ [] := sends_round hr streams
    simp only [List.append_nil] at hround
    refine sends_bind _ hround fun _ => ih (leftOver streams) fun s hs => ?_
    obtain ⟨chunk, hmem⟩ := mem_leftOver.mp hs
    have hlt := hrounds _ hmem
    simpa using hlt

/-- The driving sends all that is put out, or stops at the first failure. -/
theorem sends_drive (hr : Forwards receive) (inputs : List (Nat × Payload)) :
    Sends [] (drive receive inputs) fun _ => [] := by
  have hbegun : Sends [] (beginAll receive inputs) fun streams => streams ++ [] :=
    sends_beginAll hr inputs
  simp only [List.append_nil] at hbegun
  refine sends_bind _ hbegun fun streams => ?_
  exact sends_turns hr _ streams fun s hs => length_lt_roundsFor hs

end Stages

end Run

end FeatureGraph
