-- What happens at the roots. A delivery goes to nodes that need others, and
-- from these on to such nodes, so nothing of it happens at a root: the record
-- of the roots is what their own turns leave there, one after the other.
import FeatureGraph.Component.Output
import FeatureGraph.Proofs.Run.Driving

namespace FeatureGraph

variable {W : Type} {net : Wiring} {L L' L'' : Ledger} {id m : Nat} {act : Act}

/-! ## The record of the roots -/

/-- It happened at a root, and is neither its acquiring nor its release. -/
def rootWork (net : Wiring) (e : JournalEntry) : Bool :=
  (net.needs e.node).isEmpty && !e.act.isBracket

/-- What happened at the roots between the acquiring and the releases. -/
def rootActs (net : Wiring) (j : List JournalEntry) : List JournalEntry := j.filter (rootWork net)

theorem rootActs_append (j k : List JournalEntry) :
    rootActs net (j ++ k) = rootActs net j ++ rootActs net k := List.filter_append ..

/-- Nothing has happened at the roots. -/
structure Below (net : Wiring) (L L' : Ledger) : Prop where
  journal : rootActs net L'.journal = rootActs net L.journal
  ended : ∀ v, net.Root v → L'.ended v = L.ended v

namespace Below

theorem refl (L : Ledger) : Below net L L := ⟨rfl, fun _ _ => rfl⟩

theorem trans (h : Below net L L') (h' : Below net L' L'') : Below net L L'' :=
  ⟨h'.journal.trans h.journal, fun v hv => (h'.ended v hv).trans (h.ended v hv)⟩

theorem record (hid : ¬ net.Root id) (act : Act) : Below net L (L.record id act) := by
  refine ⟨?_, fun _ _ => rfl⟩
  rw [Ledger.record, rootActs_append]
  have hnone : rootActs net [⟨id, act⟩] = [] := by
    simp [rootActs, rootWork, show net.needs id ≠ [] from hid]
  rw [hnone, List.append_nil]

theorem hear (u : Nat) : Below net L (L.hear id u) := ⟨rfl, fun _ _ => rfl⟩

theorem close (l : Nat) : Below net L (L.close id l) := ⟨rfl, fun _ _ => rfl⟩

theorem finish (hid : ¬ net.Root id) : Below net L (L.finish id) := by
  refine ⟨rfl, fun v hv => if_neg ?_⟩
  rintro rfl
  exact hid hv

end Below

namespace Ledger

/-- The record once a node has sent these chunks. -/
def sends (L : Ledger) (id : Nat) (chunks : List Payload) : Ledger :=
  { L with journal := L.journal ++ chunks.map fun chunk => ⟨id, .emit chunk⟩ }

/-- The record once a node has ended, with these chunks left. -/
def ends (L : Ledger) (id : Nat) (chunks : List Payload) : Ledger :=
  ((L.record id (.lastChunk (.ok (Output.ofPayloads chunks)))).finish id).sends id chunks

end Ledger

theorem Below.sends (h : Below net L L') (id : Nat) (chunks : List Payload) :
    Below net (L.sends id chunks) (L'.sends id chunks) := by
  refine ⟨?_, h.ended⟩
  rw [Ledger.sends, Ledger.sends, rootActs_append, rootActs_append, h.journal]

theorem below_sends (hid : ¬ net.Root id) (chunks : List Payload) :
    Below net L (L.sends id chunks) := by
  refine ⟨?_, fun _ _ => rfl⟩
  have hnone : rootActs net (chunks.map fun chunk => ⟨id, .emit chunk⟩) = [] := by
    simp [rootActs, rootWork, show net.needs id ≠ [] from hid]
  rw [Ledger.sends, rootActs_append, hnone, List.append_nil]

theorem below_ends (hid : ¬ net.Root id) (chunks : List Payload) :
    Below net L (L.ends id chunks) :=
  ((Below.record hid _).trans (.finish hid)).trans (below_sends hid chunks)

/-! ## Deliveries -/

/-- A receiver that nodes which need others leave the roots alone at. -/
def Lower (net : Wiring) (receive : Run.Receiver W) : Prop :=
  ∀ {id} data u L, id < net.size → ¬ net.Root id →
    Run.Safe net (fun _ => True) (receive id data u) L fun _ L' => Below net L L'

section Stages

variable {receive : Run.Receiver W} {out : Output}

theorem safe_push_below (hw : net.Wired) (hr : Lower net receive) (id : Nat)
    (data : Option Payload) (L : Ledger) :
    Run.Safe net (fun _ => True) (Run.push receive id data) L fun _ L' => Below net L L' := by
  refine Run.safe_bind (Run.safe_listeners ?_)
  refine (Run.safe_each (I := fun ls L' => (∀ l ∈ ls, l ∈ net.listeners id) ∧ Below net L L')
    (fun l rest L' h => ?_) _ ⟨fun _ hl => hl, .refl L⟩).mono fun _ _ h => h.2
  obtain ⟨hl, hrest⟩ := List.forall_mem_cons.mp h.1
  have hlt := hw.inRange (hw.mem_needs hl)
  exact (hr data id L' hlt (hw.not_root hl)).mono fun _ _ h' => ⟨hrest, h.2.trans h'⟩

/-- A chunk that is sent goes on record, and all else of it happens below. -/
theorem safe_emit_below (hw : net.Wired) (hr : Lower net receive) (id : Nat)
    (chunk : Except ComponentError Payload) (L : Ledger) :
    Run.Safe net (fun _ => True) (Run.emit receive id chunk) L fun _ L' =>
      ∃ data, chunk = .ok data ∧ Below net (L.sends id [data]) L' := by
  refine Run.safe_bind (Run.safe_demand (fun data hchunk => ?_) fun _ _ => trivial)
  refine Run.safe_bind (Run.safe_note ?_)
  exact (safe_push_below hw hr id (some data) _).mono fun _ _ h => ⟨data, hchunk, h⟩

theorem safe_emits_below (hw : net.Wired) (hr : Lower net receive) (id : Nat) (out : Output)
    (L : Ledger) :
    Run.Safe net (fun _ => True) (Procedure.each (Run.emit receive id) out) L fun _ L' =>
      ∃ chunks, out = Output.ofPayloads chunks ∧ Below net (L.sends id chunks) L' := by
  induction out generalizing L with
  | nil => exact Run.safe_pure ⟨[], rfl, by simpa [Ledger.sends] using Below.refl L⟩
  | cons chunk rest ih =>
    refine Run.safe_bind ((safe_emit_below hw hr id chunk L).mono ?_)
    rintro - L₁ ⟨data, rfl, h₁⟩
    refine (ih L₁).mono ?_
    rintro - L₂ ⟨chunks, rfl, h₂⟩
    refine ⟨data :: chunks, rfl, ?_⟩
    have hboth := (h₁.sends id chunks).trans h₂
    simpa [Ledger.sends] using hboth

/-- A node that has not ended ends, and what it has left is sent. -/
theorem safe_complete_below (hw : net.Wired) (hr : Lower net receive) (hid : id < net.size)
    (L : Ledger) :
    Run.Safe net (fun _ => True) (Run.complete receive id) L fun _ L' =>
      (L.ended id = true ∧ L' = L) ∨
        (L.ended id = false ∧ ∃ chunks, Below net (L.ends id chunks) L') := by
  refine Run.safe_bind (Run.safe_ended hid ?_)
  cases hended : L.ended id with
  | true => exact Run.safe_pure (Or.inl ⟨rfl, rfl⟩)
  | false =>
    refine Run.safe_bind (Run.safe_lastChunk hid fun result => ?_)
    refine Run.safe_bind (Run.safe_demand (fun out hout => ?_) fun _ _ => trivial)
    subst hout
    refine Run.safe_bind ((safe_emits_below hw hr id out _).mono ?_)
    rintro - L₁ ⟨chunks, rfl, h₁⟩
    refine Run.safe_bind (Run.safe_listeners ?_)
    refine Run.safe_bind ((Run.safe_each
      (I := fun ls L' => (∀ l ∈ ls, l ∈ net.listeners id) ∧ Below net L₁ L')
      (fun l rest L' h => ?_) _ ⟨fun _ hl => hl, .refl L₁⟩).mono fun _ L₂ h₂ => ?_)
    · obtain ⟨hl, hrest⟩ := List.forall_mem_cons.mp h.1
      exact Run.safe_finalize (hw.inRange (hw.mem_needs hl)) ⟨hrest, h.2.trans (.close l)⟩
    · refine (safe_push_below hw hr id none L₂).mono fun _ L₃ h₃ => ?_
      exact Or.inr ⟨rfl, chunks, (h₁.trans h₂.2).trans h₃⟩

/-- A node that works takes something out and turns it into an output, or finds too little. -/
theorem safe_work_record (hid : id < net.size) (L : Ledger) :
    Run.Safe (W := W) net (fun _ => True) (Run.work id) L fun out L' =>
      (out = none ∧ L' = L.record id (.dequeue (L.isFinalized net id) none)) ∨
        ∃ data o, out = some o ∧
          L' = (L.record id (.dequeue (L.isFinalized net id) (some data))).record id
            (.transform data (.ok o)) := by
  refine Run.safe_bind (Run.safe_dequeue hid fun got => ?_)
  cases got with
  | none => exact Run.safe_pure (Or.inl ⟨rfl, rfl⟩)
  | some data =>
    refine Run.safe_bind (Run.safe_transform hid fun result => ?_)
    refine Run.safe_bind (Run.safe_demand (fun o ho => ?_) fun _ _ => trivial)
    subst ho
    exact Run.safe_pure (Or.inr ⟨data, o, rfl, rfl⟩)

theorem lower_deliver (hw : net.Wired) (hr : Lower net receive) :
    Lower net (Run.deliver receive) := by
  intro id data u L hid hroot
  rw [Run.deliver_eq]
  refine Run.safe_bind (Run.safe_closed hid ?_)
  split
  · exact Run.safe_pure (.refl L)
  · have htake : Run.Safe (W := W) net (fun _ => True) (Run.takeIn id u data) L fun _ L' =>
        Below net L L' := by
      cases data with
      | none => exact Run.safe_pure (.refl L)
      | some data => exact Run.safe_enqueueFrom hid ((Below.record hroot _).trans (.hear u))
    refine Run.safe_bind (htake.mono fun _ L₁ h₁ => ?_)
    refine Run.safe_bind ((safe_work_record hid L₁).mono fun out L₂ h₂ => ?_)
    have hworked : Below net L₁ L₂ := by
      rcases h₂ with ⟨-, rfl⟩ | ⟨data, o, -, rfl⟩
      · exact .record hroot _
      · exact (Below.record hroot _).trans (.record hroot _)
    refine Run.safe_bind ((safe_emits_below hw hr id _ L₂).mono ?_)
    rintro - L₃ ⟨chunks, -, h₃⟩
    have hsent : Below net L L₃ :=
      ((h₁.trans hworked).trans (below_sends hroot chunks)).trans h₃
    refine Run.safe_bind (Run.safe_isFinalized hid ?_)
    split
    · refine (safe_complete_below hw hr hid L₃).mono fun _ L₄ h₄ => ?_
      rcases h₄ with ⟨-, rfl⟩ | ⟨-, chunks, h₄⟩
      · exact hsent
      · exact (hsent.trans (below_ends hroot chunks)).trans h₄
    · exact Run.safe_pure hsent

/-- Deliveries leave the roots alone. -/
theorem lower_receive (hw : net.Wired) (depth : Nat) : Lower net (Run.receive (W := W) depth) := by
  induction depth with
  | zero => exact fun data u L hid hroot => Run.safe_pure (.refl L)
  | succ depth ih => exact lower_deliver hw ih

end Stages

/-! ## Turns of roots -/

/-- A root ends, with these chunks left. -/
def ending (id : Nat) (tail : List Payload) : List JournalEntry :=
  ⟨id, .lastChunk (.ok (Output.ofPayloads tail))⟩ :: tail.map fun chunk => ⟨id, .emit chunk⟩

/-- The first turn of a root: it takes its input in, and turns what it takes out into an output. If
it takes nothing out it ends. -/
def opening (made : Option (Payload × Output)) (tail : List Payload) (s : Nat × Payload) :
    List JournalEntry :=
  ⟨s.1, .enqueue 0 s.2⟩ ::
    match made with
    | some (data, out) => [⟨s.1, .dequeue true (some data)⟩, ⟨s.1, .transform data (.ok out)⟩]
    | none => ⟨s.1, .dequeue true none⟩ :: ending s.1 tail

/-- A later turn of a root: it sends a chunk, or ends. -/
def entriesOf (tail : Nat → List Payload) : Run.Turn → List JournalEntry
  | (id, some (.ok chunk)) => [⟨id, .emit chunk⟩]
  | (_, some (.error _)) => []
  | (id, none) => ending id (tail id)

/-- The roots that end in one of these turns. -/
def endingIn (turns : List Run.Turn) : List Nat :=
  turns.filterMap fun turn => if turn.2.isNone then some turn.1 else none

section Roots

theorem rootActs_record (hroot : net.Root id) (hact : act.isBracket = false) :
    rootActs net (L.record id act).journal = rootActs net L.journal ++ [⟨id, act⟩] := by
  rw [Ledger.record, rootActs_append]
  simp [rootActs, rootWork, show net.needs id = [] from hroot, hact]

theorem rootActs_sends (hroot : net.Root id) (chunks : List Payload) :
    rootActs net (L.sends id chunks).journal =
      rootActs net L.journal ++ chunks.map fun chunk => ⟨id, .emit chunk⟩ := by
  rw [Ledger.sends, rootActs_append]
  congr 1
  refine List.filter_eq_self.mpr fun e he => ?_
  obtain ⟨chunk, -, rfl⟩ := List.mem_map.mp he
  simp [rootWork, show net.needs id = [] from hroot, Act.isBracket]

theorem rootActs_ends (hroot : net.Root id) (chunks : List Payload) :
    rootActs net (L.ends id chunks).journal = rootActs net L.journal ++ ending id chunks := by
  rw [Ledger.ends, rootActs_sends hroot, Ledger.finish_journal, rootActs_record hroot rfl,
    List.append_assoc]
  rfl

theorem ended_ends {v : Nat} (hv : v ≠ id) (chunks : List Payload) :
    (L.ends id chunks).ended v = L.ended v := if_neg hv

variable {receive : Run.Receiver W} {data : Payload}

/-- The first turn of a root. -/
theorem safe_begin_root (hw : net.Wired) (hr : Lower net receive) (hroot : net.Root id)
    (hid : id < net.size) (hopen : L.ended id = false) :
    Run.Safe net (fun _ => True) (Run.begin receive id data) L fun out L' => ∃ made tail,
      out = made.map Prod.snd ∧
      rootActs net L'.journal = rootActs net L.journal ++ opening made tail (id, data) ∧
      (∀ v, net.Root v → v ≠ id → L'.ended v = L.ended v) ∧
      (out.isSome = true → L'.ended id = false) := by
  refine Run.safe_bind (Run.safe_enqueueRoot hid ?_)
  refine Run.safe_bind ((safe_work_record hid _).mono fun out L₁ h₁ => ?_)
  rw [Ledger.isFinalized_of_root hroot] at h₁
  rcases h₁ with ⟨rfl, rfl⟩ | ⟨got, o, rfl, rfl⟩
  · refine Run.safe_bind ((safe_complete_below hw hr hid _).mono fun _ L₂ h₂ => ?_)
    rcases h₂ with ⟨hended, -⟩ | ⟨-, tail, hbelow⟩
    · exact absurd (hended.symm.trans hopen) (by decide)
    · refine Run.safe_pure ⟨none, tail, rfl, ?_, fun v hv hne => ?_, fun h => by cases h⟩
      · rw [hbelow.journal, rootActs_ends hroot, rootActs_record hroot rfl,
          rootActs_record hroot rfl, List.append_assoc, List.append_assoc]
        rfl
      · exact (hbelow.ended v hv).trans (ended_ends hne tail)
  · refine Run.safe_pure ⟨some (got, o), [], rfl, ?_, fun _ _ _ => rfl, fun _ => hopen⟩
    rw [rootActs_record hroot rfl, rootActs_record hroot rfl, rootActs_record hroot rfl,
      List.append_assoc, List.append_assoc]
    rfl

section Update

variable {rest : List (Nat × Payload)} {turns : List Run.Turn}

/-- What the other roots have to send does not depend on this one, -/
theorem streams_update (hid : id ∉ numbersOf rest) (made : Nat → Option (Payload × Output))
    (first : Option (Payload × Output)) :
    (rest.filterMap fun t => (Function.update made id first t.1).map fun w => (t.1, w.2)) =
      rest.filterMap fun t => (made t.1).map fun w => (t.1, w.2) := by
  refine List.filterMap_congr fun t ht => ?_
  rw [Function.update_of_ne (ne_of_mem_of_not_mem (List.mem_map_of_mem ht) hid)]

/-- nor do their first turns, -/
theorem openings_update (hid : id ∉ numbersOf rest) (made : Nat → Option (Payload × Output))
    (first : Option (Payload × Output)) (tail : Nat → List Payload) (last : List Payload) :
    (rest.flatMap fun t => opening (Function.update made id first t.1)
        (Function.update tail id last t.1) t) =
      rest.flatMap fun t => opening (made t.1) (tail t.1) t := by
  refine List.flatMap_congr fun t ht => ?_
  have hne : t.1 ≠ id := ne_of_mem_of_not_mem (List.mem_map_of_mem ht) hid
  rw [Function.update_of_ne hne, Function.update_of_ne hne]

/-- nor the later ones. -/
theorem entries_update (hid : id ∉ endingIn turns) (tail : Nat → List Payload)
    (last : List Payload) :
    turns.flatMap (entriesOf (Function.update tail id last)) = turns.flatMap (entriesOf tail) := by
  refine List.flatMap_congr fun t ht => ?_
  obtain ⟨v, _ | _ | _⟩ := t
  · have hv : v ∈ endingIn turns := List.mem_filterMap.mpr ⟨_, ht, rfl⟩
    rw [entriesOf, entriesOf, Function.update_of_ne (ne_of_mem_of_not_mem hv hid)]
  · rfl
  · rfl

end Update

/-- The first turns of all roots, in order. -/
theorem safe_beginAll_roots (hw : net.Wired) (hr : Lower net receive)
    (inputs : List (Nat × Payload)) (hinputs : Drivable net inputs)
    (hopen : ∀ s ∈ inputs, L.ended s.1 = false) :
    Run.Safe net (fun _ => True) (Run.beginAll receive inputs) L fun streams L' =>
      ∃ (made : Nat → Option (Payload × Output)) (tail : Nat → List Payload),
        streams = inputs.filterMap (fun s => (made s.1).map fun w => (s.1, w.2)) ∧
        rootActs net L'.journal = rootActs net L.journal ++
          inputs.flatMap (fun s => opening (made s.1) (tail s.1) s) ∧
        (∀ v, net.Root v → v ∉ numbersOf inputs → L'.ended v = L.ended v) ∧
        ∀ s ∈ streams, L'.ended s.1 = false := by
  induction inputs generalizing L with
  | nil => exact Run.safe_pure ⟨fun _ => none, fun _ => [], rfl, by simp, fun _ _ _ => rfl, by simp⟩
  | cons s rest ih =>
    obtain ⟨id, data⟩ := s
    have hs : (id, data) ∈ (id, data) :: rest := List.mem_cons_self
    have hroot := hinputs.root _ hs
    refine Run.safe_bind ((safe_begin_root hw hr hroot (hinputs.inRange _ hs)
      (hopen _ hs)).mono ?_)
    rintro out L₁ ⟨first, last, rfl, hacts, hothers, hstill⟩
    have hrest : ∀ t ∈ rest, L₁.ended t.1 = false := fun t ht =>
      (hothers t.1 (hinputs.tail.root t ht) (hinputs.head_ne ht)).trans
        (hopen t (List.mem_cons_of_mem _ ht))
    refine Run.safe_bind ((ih hinputs.tail hrest).mono ?_)
    rintro streams L₂ ⟨made, tail, rfl, hacts₂, hothers₂, hstill₂⟩
    have hid : id ∉ numbersOf rest := (List.nodup_cons.mp hinputs.once).1
    have hstreams := streams_update hid made first
    have hopenings := openings_update hid made first tail last
    have hall : rootActs net L₂.journal = rootActs net L.journal ++
        ((id, data) :: rest).flatMap (fun t => opening (Function.update made id first t.1)
          (Function.update tail id last t.1) t) := by
      rw [List.flatMap_cons, hopenings, Function.update_self, Function.update_self, hacts₂, hacts,
        List.append_assoc]
    have haside : ∀ v, net.Root v → v ∉ numbersOf ((id, data) :: rest) →
        L₂.ended v = L.ended v := fun v hv hnot => by
      simp only [numbersOf, List.map_cons, List.mem_cons, not_or] at hnot
      exact (hothers₂ v hv hnot.2).trans (hothers v hv hnot.1)
    cases first with
    | none =>
      refine Run.safe_pure ⟨Function.update made id none, Function.update tail id last, ?_, hall,
        haside, hstill₂⟩
      rw [List.filterMap_cons, Function.update_self, hstreams]
      rfl
    | some w =>
      refine Run.safe_pure ⟨Function.update made id (some w), Function.update tail id last, ?_,
        hall, haside, List.forall_mem_cons.mpr ⟨?_, hstill₂⟩⟩
      · rw [List.filterMap_cons, Function.update_self, hstreams]
        rfl
      · exact (hothers₂ id hroot hid).trans (hstill rfl)

theorem root_of_endingIn {turns : List Run.Turn} {v : Nat}
    (h : ∀ turn ∈ turns, net.Root turn.1 ∧ turn.1 < net.size) (hv : v ∈ endingIn turns) :
    net.Root v := by
  obtain ⟨turn, hturn, heq⟩ := List.mem_filterMap.mp hv
  split at heq
  · cases heq
    exact (h turn hturn).1
  · cases heq

/-- Later turns, one after the other. A chunk that is sent is no failure, or the run would stop. -/
theorem safe_takes (hw : net.Wired) (hr : Lower net receive) (turns : List Run.Turn)
    (hroots : ∀ turn ∈ turns, net.Root turn.1 ∧ turn.1 < net.size) (honce : (endingIn turns).Nodup)
    (hopen : ∀ v ∈ endingIn turns, L.ended v = false) :
    Run.Safe net (fun _ => True) (Procedure.each (Run.take receive) turns) L fun _ L' =>
      ∃ tail : Nat → List Payload,
        (∀ turn ∈ turns, ∀ chunk, turn.2 = some chunk → ∃ data, chunk = .ok data) ∧
        rootActs net L'.journal = rootActs net L.journal ++ turns.flatMap (entriesOf tail) := by
  induction turns generalizing L with
  | nil => exact Run.safe_pure ⟨fun _ => [], by simp, by simp⟩
  | cons turn rest ih =>
    obtain ⟨⟨hroot, hid⟩, hrest⟩ := List.forall_mem_cons.mp hroots
    obtain ⟨id, _ | chunk⟩ := turn
    · have hends : endingIn ((id, none) :: rest) = id :: endingIn rest := rfl
      rw [hends] at honce hopen
      obtain ⟨hnot, honce⟩ := List.nodup_cons.mp honce
      obtain ⟨hself, hothers⟩ := List.forall_mem_cons.mp hopen
      refine Run.safe_bind ((safe_complete_below hw hr hid L).mono fun _ L₁ h₁ => ?_)
      rcases h₁ with ⟨hended, -⟩ | ⟨-, last, hbelow⟩
      · exact absurd (hended.symm.trans hself) (by decide)
      · have hstill : ∀ v ∈ endingIn rest, L₁.ended v = false := fun v hv => by
          have hne : v ≠ id := fun h => hnot (h ▸ hv)
          rw [hbelow.ended v (root_of_endingIn hrest hv), ended_ends hne, hothers v hv]
        refine (ih hrest honce hstill).mono ?_
        rintro - L₂ ⟨tail, hfine, hacts⟩
        have hnone : ∀ chunk, (none : Option (Except ComponentError Payload)) = some chunk →
            ∃ data, chunk = .ok data := fun _ h => by cases h
        refine ⟨Function.update tail id last, List.forall_mem_cons.mpr ⟨hnone, hfine⟩, ?_⟩
        rw [List.flatMap_cons, entries_update hnot, hacts, hbelow.journal, rootActs_ends hroot,
          List.append_assoc, entriesOf, Function.update_self]
    · have hends : endingIn ((id, some chunk) :: rest) = endingIn rest := rfl
      rw [hends] at honce hopen
      refine Run.safe_bind ((safe_emit_below hw hr id chunk L).mono ?_)
      rintro - L₁ ⟨data, rfl, hbelow⟩
      have hstill : ∀ v ∈ endingIn rest, L₁.ended v = false := fun v hv => by
        rw [hbelow.ended v (root_of_endingIn hrest hv)]
        exact hopen v hv
      refine (ih hrest honce hstill).mono ?_
      rintro - L₂ ⟨tail, hfine, hacts⟩
      have hsome : ∀ chunk : Except ComponentError Payload, some (.ok data) = some chunk →
          ∃ data, chunk = .ok data :=
        fun _ h => ⟨data, (Option.some.inj h).symm⟩
      refine ⟨tail, List.forall_mem_cons.mpr ⟨hsome, hfine⟩, ?_⟩
      rw [List.flatMap_cons, hacts, hbelow.journal, rootActs_sends hroot, List.append_assoc]
      rfl

end Roots

end FeatureGraph
