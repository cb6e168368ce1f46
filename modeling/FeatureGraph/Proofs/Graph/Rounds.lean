-- The rounds in which the roots of a graph are driven. Every root takes its
-- input in, in the order of their keys. Then they send their chunks in this
-- order, one each in a round, and a root that has sent all of its own ends in
-- the round after. So no root is ever more than a chunk ahead of another that
-- has not ended.
import FeatureGraph.Proofs.Graph.Bracketing
import FeatureGraph.Proofs.Graph.Ending
import FeatureGraph.Proofs.Graph.Positions
import FeatureGraph.Proofs.Run.Turns

namespace FeatureGraph

variable {W : Type}

/-! ## The schedule -/

/-- What a root does in a round, when it has these chunks: it sends one, or ends if it has sent
them all just before. -/
def turnOf (tail : Nat → List Payload) (round : Nat) (s : Nat × List Payload) :
    List JournalEntry :=
  match s.2[round]? with
  | some chunk => [⟨s.1, .emit chunk⟩]
  | none => if round = s.2.length then ending s.1 (tail s.1) else []

/-- What the components of the roots answer in a run. -/
structure Script where
  /-- What a root takes out of its input, if it is enough, and the chunks that it makes of it. -/
  work : Nat → Option (Payload × List Payload)
  /-- The chunks that a root has left at its end. -/
  tail : Nat → List Payload

namespace Script

/-- The first turn of a root with its input. -/
def first (p : Script) (s : Nat × Payload) : List JournalEntry :=
  opening ((p.work s.1).map fun w => (w.1, Output.ofPayloads w.2)) (p.tail s.1) s

/-- The turn of a root in a round. One that has ended at its first turn has no other. -/
def turn (p : Script) (round id : Nat) : List JournalEntry :=
  match p.work id with
  | some (_, chunks) => turnOf p.tail round (id, chunks)
  | none => []

/-- The first turns of all roots, and so many rounds. -/
def schedule (p : Script) (inputs : List (Nat × Payload)) (rounds : Nat) : List JournalEntry :=
  inputs.flatMap p.first ++
    (List.range rounds).flatMap fun round => inputs.flatMap fun s => p.turn round s.1

/-- The roots that have chunks to send, with these. -/
def streams (p : Script) (inputs : List (Nat × Payload)) : List (Nat × List Payload) :=
  inputs.filterMap fun s => (p.work s.1).map fun w => (s.1, w.2)

end Script

section Schedule

variable {tail : Nat → List Payload} {streams : List (Nat × List Payload)}
  {outputs : List (Nat × Output)} {rounds : Nat}

/-- The roots that are not done after a round, with the chunks that are left to them. -/
def remaining (streams : List (Nat × List Payload)) : List (Nat × List Payload) :=
  streams.filterMap fun s =>
    match s.2 with
    | [] => none
    | _ :: rest => some (s.1, rest)

/-- As the turns have outputs. -/
def asOutputs (streams : List (Nat × List Payload)) : List (Nat × Output) :=
  streams.map fun s => (s.1, Output.ofPayloads s.2)

theorem leftOver_asOutputs : leftOver (asOutputs streams) = asOutputs (remaining streams) := by
  induction streams with
  | nil => rfl
  | cons s rest ih =>
    obtain ⟨id, _ | ⟨chunk, more⟩⟩ := s
    · exact ih
    · exact congrArg ((id, Output.ofPayloads more) :: ·) ih

/-- In the next round the roots do what they do in this one with what is left. -/
theorem turnOf_remaining (round : Nat) : streams.flatMap (turnOf tail (round + 1)) =
    (remaining streams).flatMap (turnOf tail round) := by
  induction streams with
  | nil => rfl
  | cons s rest ih =>
    obtain ⟨id, _ | ⟨chunk, more⟩⟩ := s
    · rw [List.flatMap_cons, ih]
      simp [turnOf, remaining]
    · rw [List.flatMap_cons, ih]
      simp [turnOf, remaining]

theorem turns_succ (rounds : Nat) (outputs : List (Nat × Output)) :
    Run.turns (rounds + 1) outputs =
      (outputs.map fun s => (s.1, s.2.head?)) ++ Run.turns rounds (leftOver outputs) := rfl

/-- The first round, and the others with what it leaves. -/
theorem rounds_succ (rounds : Nat) (streams : List (Nat × List Payload)) :
    ((List.range (rounds + 1)).flatMap fun round => streams.flatMap (turnOf tail round)) =
      streams.flatMap (turnOf tail 0) ++
        (List.range rounds).flatMap fun round =>
          (remaining streams).flatMap (turnOf tail round) := by
  rw [List.range_succ_eq_map, List.flatMap_cons, List.flatMap_map]
  refine congrArg (streams.flatMap (turnOf tail 0) ++ ·) ?_
  exact List.flatMap_congr fun round _ => turnOf_remaining round

/-- The turns of roots, round by round. -/
theorem turns_eq (tail : Nat → List Payload) (rounds : Nat) (streams : List (Nat × List Payload)) :
    (Run.turns rounds (asOutputs streams)).flatMap (entriesOf tail) =
      (List.range rounds).flatMap fun round => streams.flatMap (turnOf tail round) := by
  induction rounds generalizing streams with
  | zero => rfl
  | succ rounds ih =>
    have hfirst : ((asOutputs streams).map fun s => (s.1, s.2.head?)).flatMap (entriesOf tail) =
        streams.flatMap (turnOf tail 0) := by
      unfold asOutputs
      rw [List.map_map, List.flatMap_map]
      refine List.flatMap_congr fun s _ => ?_
      obtain ⟨id, _ | ⟨chunk, more⟩⟩ := s <;> rfl
    rw [turns_succ, List.flatMap_append, hfirst, leftOver_asOutputs, ih, rounds_succ]

/-- A turn is one of these roots. -/
theorem mem_of_mem_turns {turn : Run.Turn} (h : turn ∈ Run.turns rounds outputs) :
    turn.1 ∈ numbersOf outputs := by
  induction rounds generalizing outputs with
  | zero => cases h
  | succ rounds ih =>
    rw [turns_succ] at h
    rcases List.mem_append.mp h with h | h
    · obtain ⟨s, hs, rfl⟩ := List.mem_map.mp h
      exact List.mem_map_of_mem hs
    · exact (leftOver_sublist outputs).mem (ih h)

/-- Every chunk has its turn. -/
theorem mem_turns {s : Nat × Output} {chunk : Except ComponentError Payload}
    (hrounds : ∀ s ∈ outputs, s.2.length < rounds) (hs : s ∈ outputs) (hchunk : chunk ∈ s.2) :
    (s.1, some chunk) ∈ Run.turns rounds outputs := by
  induction rounds generalizing outputs s with
  | zero => exact absurd (hrounds s hs) (Nat.not_lt_zero _)
  | succ rounds ih =>
    obtain ⟨id, _ | ⟨head, rest⟩⟩ := s
    · cases hchunk
    rw [turns_succ]
    rcases List.mem_cons.mp hchunk with rfl | hchunk
    · exact List.mem_append_left _ (List.mem_map.mpr ⟨_, hs, rfl⟩)
    · refine List.mem_append_right _ (ih (s := (id, rest)) (fun t ht => ?_) ?_ hchunk)
      · obtain ⟨first, hfirst⟩ := mem_leftOver.mp (show (t.1, t.2) ∈ leftOver outputs from ht)
        exact Nat.lt_of_succ_lt_succ (hrounds _ hfirst)
      · exact mem_leftOver.mpr ⟨head, hs⟩

theorem mem_endingIn {turns : List Run.Turn} {v : Nat} :
    v ∈ endingIn turns ↔ (v, none) ∈ turns := by
  simp only [endingIn, List.mem_filterMap, Option.ite_none_right_eq_some]
  constructor
  · rintro ⟨⟨id, _ | chunk⟩, hturn, hnone, heq⟩
    · cases heq
      exact hturn
    · cases hnone
  · exact fun h => ⟨_, h, rfl, rfl⟩

/-- A root ends in one turn. -/
theorem nodup_endingIn (h : (numbersOf outputs).Nodup) :
    (endingIn (Run.turns rounds outputs)).Nodup := by
  induction rounds generalizing outputs with
  | zero => exact List.nodup_nil
  | succ rounds ih =>
    have hfirst : (endingIn (outputs.map fun s => (s.1, s.2.head?))).Nodup := by
      have hsub := map_filterMap_sublist (f := fun turn : Run.Turn =>
        if turn.2.isNone then some turn.1 else none) (p := id) (q := Prod.fst)
        (fun turn v hv => by split at hv <;> cases hv; rfl)
        (outputs.map fun s => (s.1, s.2.head?))
      rw [List.map_id, List.map_map] at hsub
      exact h.sublist hsub
    rw [turns_succ, endingIn, List.filterMap_append]
    refine List.nodup_append.mpr ⟨hfirst, ih (h.sublist (leftOver_sublist outputs)), ?_⟩
    rintro v hv _ hlater rfl
    -- a root that ends in the first round has nothing left for the others
    obtain ⟨⟨id, out⟩, hout, heq⟩ := List.mem_map.mp (mem_endingIn.mp hv)
    obtain ⟨⟨id', rest⟩, hrest, heq'⟩ := List.mem_map.mp (mem_of_mem_turns (mem_endingIn.mp hlater))
    obtain ⟨chunk, hchunk⟩ := mem_leftOver.mp hrest
    have hid : id = v := congrArg Prod.fst heq
    have hnone : out.head? = none := congrArg Prod.snd heq
    have hsame := List.inj_on_of_nodup_map h hout hchunk (hid.trans heq'.symm)
    cases hsame
    cases hnone

end Schedule

/-! ## How the roots are driven -/

section Driving

variable {net : Wiring} {L : Ledger} {receive : Run.Receiver W}

/-- The chunks of an output. -/
def payloadsOf (out : Output) : List Payload := out.filterMap Except.toOption

theorem ofPayloads_payloadsOf {out : Output} (h : ∀ chunk ∈ out, ∃ data, chunk = .ok data) :
    Output.ofPayloads (payloadsOf out) = out := by
  induction out with
  | nil => rfl
  | cons chunk rest ih =>
    obtain ⟨⟨data, rfl⟩, hrest⟩ := List.forall_mem_cons.mp h
    exact congrArg (.ok data :: ·) (ih hrest)

theorem Script.flatMap_streams (p : Script) (inputs : List (Nat × Payload)) (round : Nat) :
    (p.streams inputs).flatMap (turnOf p.tail round) =
      inputs.flatMap fun s => p.turn round s.1 := by
  induction inputs with
  | nil => rfl
  | cons s rest ih =>
    unfold streams turn at *
    rw [List.filterMap_cons, List.flatMap_cons, ← ih]
    cases p.work s.1 <;> rfl

theorem Script.mem_streams {p : Script} {inputs : List (Nat × Payload)} {v : Nat}
    {chunks : List Payload} (h : (v, chunks) ∈ p.streams inputs) :
    v ∈ numbersOf inputs ∧ ∃ data, p.work v = some (data, chunks) := by
  obtain ⟨s, hs, heq⟩ := List.mem_filterMap.mp h
  obtain ⟨⟨data, cs⟩, hw, heq⟩ := Option.map_eq_some_iff.mp heq
  cases heq
  exact ⟨List.mem_map_of_mem hs, data, hw⟩

theorem Script.streams_sublist (p : Script) (inputs : List (Nat × Payload)) :
    (numbersOf (p.streams inputs)).Sublist (numbersOf inputs) := by
  refine map_filterMap_sublist (fun s t ht => ?_) inputs
  obtain ⟨w, -, rfl⟩ := Option.map_eq_some_iff.mp ht
  rfl

/-- What roots have made of their inputs, and left at an early end or a late one, as a script. -/
theorem exists_script (inputs : List (Nat × Payload)) (made : Nat → Option (Payload × Output))
    (early late : Nat → List Payload) (hfine : ∀ s ∈ inputs, ∀ w, made s.1 = some w →
      ∀ chunk ∈ w.2, ∃ data, chunk = .ok data) :
    ∃ p : Script,
      inputs.flatMap p.first = inputs.flatMap (fun s => opening (made s.1) (early s.1) s) ∧
      asOutputs (p.streams inputs) =
        inputs.filterMap (fun s => (made s.1).map fun w => (s.1, w.2)) ∧
      ∀ round, (p.streams inputs).flatMap (turnOf p.tail round) =
        (p.streams inputs).flatMap (turnOf late round) := by
  have hchunks : ∀ s ∈ inputs, ∀ w, made s.1 = some w → Output.ofPayloads (payloadsOf w.2) = w.2 :=
    fun s hs w hw => ofPayloads_payloadsOf (hfine s hs w hw)
  let p : Script := ⟨fun v => (made v).map fun w => (w.1, payloadsOf w.2),
    fun v => if (made v).isSome then late v else early v⟩
  refine ⟨p, ?_, ?_, fun round => ?_⟩
  · refine List.flatMap_congr fun s hs => ?_
    cases hw : made s.1 with
    | none => simp [Script.first, p, hw]
    | some w =>
      simp only [Script.first, p, hw, Option.map_some, hchunks s hs w hw]
      rfl
  · rw [asOutputs, Script.streams, List.map_filterMap]
    refine List.filterMap_congr fun s hs => ?_
    cases hw : made s.1 with
    | none => simp [p, hw]
    | some w => simp [p, hw, hchunks s hs w hw]
  · refine List.flatMap_congr fun s hs => ?_
    obtain ⟨-, data, hw⟩ := Script.mem_streams hs
    obtain ⟨w, hmade, -⟩ := Option.map_eq_some_iff.mp hw
    have hlate : p.tail s.1 = late s.1 := if_pos (by rw [hmade]; rfl)
    rw [turnOf, turnOf, hlate]

/-- Roots that are driven to their end keep to a schedule. -/
theorem safe_drive_roots (hw : net.Wired) (hr : Lower net receive) (inputs : List (Nat × Payload))
    (hinputs : Drivable net inputs) (hopen : ∀ s ∈ inputs, L.ended s.1 = false) :
    Run.Safe net (fun _ => True) (Run.drive receive inputs) L fun _ L' =>
      ∃ (p : Script) (rounds : Nat), (∀ s ∈ p.streams inputs, s.2.length < rounds) ∧
        rootActs net L'.journal = rootActs net L.journal ++ p.schedule inputs rounds := by
  refine Run.safe_bind ((safe_beginAll_roots hw hr inputs hinputs hopen).mono ?_)
  rintro streams L₁ ⟨made, early, hstreams, hopenings, -, hstill⟩
  have hsub : (numbersOf streams).Sublist (numbersOf inputs) := by
    rw [hstreams]
    refine map_filterMap_sublist (fun s t ht => ?_) inputs
    obtain ⟨w, -, rfl⟩ := Option.map_eq_some_iff.mp ht
    rfl
  have hdrivable := hinputs.sublist hsub
  have hturn : ∀ turn ∈ Run.turns (Run.roundsFor streams) streams, ∃ s ∈ streams, s.1 = turn.1 :=
    fun turn hturn => List.mem_map.mp (mem_of_mem_turns hturn)
  have hroots : ∀ turn ∈ Run.turns (Run.roundsFor streams) streams,
      net.Root turn.1 ∧ turn.1 < net.size := fun turn hmem => by
    obtain ⟨s, hs, heq⟩ := hturn turn hmem
    exact ⟨heq ▸ hdrivable.root s hs, heq ▸ hdrivable.inRange s hs⟩
  have hopen₁ : ∀ v ∈ endingIn (Run.turns (Run.roundsFor streams) streams),
      L₁.ended v = false := fun v hv => by
    obtain ⟨s, hs, rfl⟩ := hturn _ (mem_endingIn.mp hv)
    exact hstill s hs
  refine (safe_takes hw hr _ hroots (nodup_endingIn hdrivable.once) hopen₁).mono ?_
  rintro - L₂ ⟨late, hfine, hturns⟩
  -- every chunk of a root has its turn, so none of them is a failure
  obtain ⟨p, hfirst, houtputs, hlate⟩ := exists_script inputs made early late
    fun s hs w hmade chunk hchunk => by
      have hmem : (s.1, w.2) ∈ streams := by
        rw [hstreams]
        exact List.mem_filterMap.mpr ⟨s, hs, by rw [hmade]; rfl⟩
      exact hfine _ (mem_turns (fun _ h => length_lt_roundsFor h) hmem hchunk) chunk rfl
  rw [← hstreams] at houtputs
  refine ⟨p, Run.roundsFor streams, fun s hs => ?_, ?_⟩
  · have hmem : (s.1, Output.ofPayloads s.2) ∈ streams := houtputs ▸ List.mem_map_of_mem hs
    simpa [Output.ofPayloads] using length_lt_roundsFor hmem
  · have hrounds := turns_eq late (Run.roundsFor streams) (p.streams inputs)
    rw [houtputs] at hrounds
    rw [hturns, hopenings, hrounds, Script.schedule, hfirst, List.append_assoc]
    simp only [← hlate, p.flatMap_streams]

end Driving

/-! ## Roots abreast -/

section Abreast

variable {α : Type} {j q : List JournalEntry} {v : Nat}

/-- The beginning of two lists is one of the first, or has all of the first. -/
theorem within_or_beyond {l before after : List α} (h : l <+: before ++ after) :
    l <+: before ∨ ∃ rest, l = before ++ rest ∧ rest <+: after := by
  obtain ⟨more, hmore⟩ := h
  rcases List.append_eq_append_iff.mp hmore with ⟨rest, hbefore, -⟩ | ⟨rest, hl, hafter⟩
  · exact Or.inl ⟨rest, hbefore.symm⟩
  · exact Or.inr ⟨rest, hl, ⟨more, hafter.symm⟩⟩

/-- What begins like a list, and does not have a member of it, ends before it. -/
theorem prefix_of_notMem {l before after : List α} {x : α} (h : l <+: before ++ x :: after)
    (hx : x ∉ l) : l <+: before := by
  rcases within_or_beyond h with hwithin | ⟨rest, rfl, hrest⟩
  · exact hwithin
  · cases rest with
    | nil => exact (List.append_nil before).symm ▸ List.prefix_rfl
    | cons y rest =>
      obtain ⟨rfl, -⟩ := List.cons_prefix_cons.mp hrest
      exact absurd (List.mem_append_right _ List.mem_cons_self) hx

theorem actsAt_prefix (h : q <+: j) (v : Nat) : actsAt q v <+: actsAt j v := h.filterMap _

theorem actsAt_eq_map (h : ∀ e ∈ j, e.node = v) : actsAt j v = j.map (·.act) := by
  rw [actsAt, ← List.filterMap_eq_map]
  exact List.filterMap_congr fun e he => if_pos (h e he)

theorem actsAt_eq_nil (h : ∀ e ∈ j, e.node ≠ v) : actsAt j v = [] :=
  List.filterMap_eq_nil_iff.mpr fun e he => if_neg (h e he)

/-- Where each has a part of the journal to itself, it has just its part. -/
theorem actsAt_flatMap {f : Nat × α → List JournalEntry} {l : List (Nat × α)}
    (hf : ∀ s, ∀ e ∈ f s, e.node = s.1) (honce : (numbersOf l).Nodup) {s : Nat × α} (hs : s ∈ l) :
    actsAt (l.flatMap f) s.1 = (f s).map (·.act) := by
  induction l with
  | nil => cases hs
  | cons t rest ih =>
    obtain ⟨hnot, honce⟩ := List.nodup_cons.mp honce
    rw [List.flatMap_cons, actsAt_append]
    rcases List.mem_cons.mp hs with rfl | hs
    · have hothers : actsAt (rest.flatMap f) s.1 = [] := actsAt_eq_nil fun e he heq => by
        obtain ⟨t, ht, he⟩ := List.mem_flatMap.mp he
        exact hnot (heq ▸ hf t e he ▸ List.mem_map_of_mem ht)
      rw [hothers, List.append_nil, actsAt_eq_map (hf s)]
    · have hfirst : actsAt (f t) s.1 = [] := actsAt_eq_nil fun e he heq =>
        hnot ((hf t e he).symm.trans heq ▸ List.mem_map_of_mem hs)
      rw [hfirst, List.nil_append, ih honce hs]

/-- A part of a journal in which a node that ends has not yet ended. -/
theorem actsAt_prefix_of_not_ended (h : q <+: j) (hended : ¬ Ended q v) (before : List Act)
    {after : List Act} {result : Except ComponentError Output}
    (hj : actsAt j v = before ++ .lastChunk result :: after) : actsAt q v <+: before := by
  have hacts : actsAt q v <+: before ++ .lastChunk result :: after := hj ▸ actsAt_prefix h v
  exact prefix_of_notMem hacts fun hmem => hended ⟨result, hmem⟩

theorem sentBy_join (j q : List JournalEntry) (v : Nat) :
    sentBy (j ++ q) v = sentBy j v ++ sentBy q v := by
  rw [sentBy, actsAt_append, List.filterMap_append]
  rfl

/-- How many chunks the roots have sent that have not ended: so many, or one more. -/
def Abreast (j : List JournalEntry) (roots : List Nat) : Prop :=
  ∃ sent, ∀ v ∈ roots, ¬ Ended j v → sent ≤ (sentBy j v).length ∧ (sentBy j v).length ≤ sent + 1

theorem Abreast.differ {roots : List Nat} (h : Abreast j roots) {u : Nat} (hu : u ∈ roots)
    (hv : v ∈ roots) (hu' : ¬ Ended j u) (hv' : ¬ Ended j v) :
    (sentBy j u).length ≤ (sentBy j v).length + 1 := by
  obtain ⟨sent, h⟩ := h
  have hfew := (h u hu hu').2
  have hmany := (h v hv hv').1
  omega

variable {tail : Nat → List Payload}

theorem node_ending (id : Nat) (chunks : List Payload) : ∀ e ∈ ending id chunks, e.node = id := by
  intro e he
  rcases List.mem_cons.mp he with rfl | he
  · rfl
  · obtain ⟨chunk, -, rfl⟩ := List.mem_map.mp he
    rfl

theorem node_turnOf {round : Nat} (s : Nat × List Payload) :
    ∀ e ∈ turnOf tail round s, e.node = s.1 := by
  intro e he
  unfold turnOf at he
  split at he
  · rw [List.mem_singleton.mp he]
  · split at he
    · exact node_ending _ _ e he
    · cases he

theorem remaining_sublist (streams : List (Nat × List Payload)) :
    (numbersOf (remaining streams)).Sublist (numbersOf streams) := by
  refine map_filterMap_sublist (fun s t h => ?_) streams
  obtain ⟨id, _ | ⟨chunk, rest⟩⟩ := s <;> cases h
  rfl

/-- In every round the roots are abreast. -/
theorem abreast_rounds (rounds : Nat) (streams : List (Nat × List Payload))
    (honce : (numbersOf streams).Nodup)
    (h : q <+: (List.range rounds).flatMap fun round => streams.flatMap (turnOf tail round)) :
    Abreast q (numbersOf streams) := by
  induction rounds generalizing streams q with
  | zero =>
    obtain rfl : q = [] := List.prefix_nil.mp h
    exact ⟨0, fun v _ _ => by simp [sentBy, actsAt]⟩
  | succ rounds ih =>
    have hfirst : ∀ s ∈ streams, actsAt (streams.flatMap (turnOf tail 0)) s.1 =
        (turnOf tail 0 s).map (·.act) := fun s hs => actsAt_flatMap node_turnOf honce hs
    rw [rounds_succ] at h
    rcases within_or_beyond h with hround | ⟨rest, rfl, hrest⟩
    · refine ⟨0, fun v hv hended => ⟨Nat.zero_le _, ?_⟩⟩
      obtain ⟨⟨id, chunks⟩, hs, rfl⟩ := List.mem_map.mp hv
      have hacts := hfirst _ hs
      dsimp only at hacts ⊢
      refine Nat.le_trans (List.length_filterMap_le ..) ?_
      cases chunks with
      | nil =>
        have hnone := actsAt_prefix_of_not_ended hround hended [] hacts
        exact Nat.le_succ_of_le hnone.length_le
      | cons chunk more =>
        have hone := actsAt_prefix hround id
        rw [hacts] at hone
        exact hone.length_le
    · -- who has not ended has sent one chunk in the first round, and goes on with the others
      obtain ⟨sent, hsent⟩ :=
        ih (remaining streams) (honce.sublist (remaining_sublist streams)) hrest
      refine ⟨sent + 1, fun v hv hended => ?_⟩
      rw [ended_append, not_or] at hended
      obtain ⟨⟨id, chunks⟩, hs, rfl⟩ := List.mem_map.mp hv
      have hacts := hfirst _ hs
      dsimp only at hacts hended ⊢
      cases chunks with
      | nil =>
        refine absurd ⟨.ok (Output.ofPayloads (tail id)), ?_⟩ hended.1
        rw [hacts]
        exact .head _
      | cons chunk more =>
        have hone : sentBy (streams.flatMap (turnOf tail 0)) id = [chunk] := by
          rw [sentBy, hacts]
          rfl
        have hmem : (id, more) ∈ remaining streams := List.mem_filterMap.mpr ⟨_, hs, rfl⟩
        have hlater := hsent id (List.mem_map_of_mem hmem) hended.2
        rw [sentBy_join, hone, List.length_append, List.length_singleton]
        omega

theorem node_first (p : Script) (s : Nat × Payload) : ∀ e ∈ p.first s, e.node = s.1 := by
  intro e he
  unfold Script.first opening at he
  rcases List.mem_cons.mp he with rfl | he
  · rfl
  · cases hw : p.work s.1 with
    | none =>
      rw [hw] at he
      rcases List.mem_cons.mp he with rfl | he
      · rfl
      · exact node_ending _ _ e he
    | some w =>
      rw [hw] at he
      rcases List.mem_cons.mp he with rfl | he
      · rfl
      · rw [List.mem_singleton.mp he]

/-- A root that does not end at its first turn has found enough in its input. -/
theorem Script.work_of_not_ended {p : Script} {s : Nat × Payload}
    (hacts : actsAt j s.1 = (p.first s).map (·.act)) (hended : ¬ Ended j s.1) :
    ∃ w, p.work s.1 = some w := by
  cases hw : p.work s.1 with
  | some w => exact ⟨w, rfl⟩
  | none =>
    refine absurd ⟨.ok (Output.ofPayloads (p.tail s.1)), ?_⟩ hended
    rw [hacts, Script.first, hw]
    exact .tail _ (.tail _ (.head _))

/-- At its first turn a root sends nothing before it ends. -/
theorem Script.sentBy_first_eq_nil {p : Script} {s : Nat × Payload} (h : q <+: j)
    (hended : ¬ Ended q s.1) (hacts : actsAt j s.1 = (p.first s).map (·.act)) :
    sentBy q s.1 = [] := by
  have hquiet : ∀ {acts : List Act}, actsAt q s.1 <+: acts → acts.filterMap Act.sent? = [] →
      sentBy q s.1 = [] := fun hprefix hnone =>
    List.prefix_nil.mp (hnone ▸ hprefix.filterMap Act.sent?)
  cases hw : p.work s.1 with
  | none =>
    rw [Script.first, hw] at hacts
    exact hquiet (actsAt_prefix_of_not_ended h hended [_, _] hacts) rfl
  | some w =>
    rw [Script.first, hw] at hacts
    exact hquiet (hacts ▸ actsAt_prefix h s.1) rfl

/-- At every moment of a schedule the roots are abreast. -/
theorem Script.abreast (p : Script) {inputs : List (Nat × Payload)} {rounds : Nat}
    (honce : (numbersOf inputs).Nodup) (h : q <+: p.schedule inputs rounds) :
    Abreast q (numbersOf inputs) := by
  have hfirst : ∀ s ∈ inputs, actsAt (inputs.flatMap p.first) s.1 = (p.first s).map (·.act) :=
    fun s hs => actsAt_flatMap (node_first p) honce hs
  unfold Script.schedule at h
  simp only [← p.flatMap_streams] at h
  rcases within_or_beyond h with hopening | ⟨rest, rfl, hrest⟩
  · refine ⟨0, fun v hv hended => ⟨Nat.zero_le _, Nat.le_succ_of_le ?_⟩⟩
    obtain ⟨s, hs, rfl⟩ := List.mem_map.mp hv
    have hnone : sentBy q s.1 = [] := p.sentBy_first_eq_nil hopening hended (hfirst s hs)
    rw [hnone]
    exact Nat.le_refl 0
  · obtain ⟨sent, hsent⟩ :=
      abreast_rounds rounds (p.streams inputs) (honce.sublist (p.streams_sublist inputs)) hrest
    refine ⟨sent, fun v hv hended => ?_⟩
    rw [ended_append, not_or] at hended
    obtain ⟨s, hs, rfl⟩ := List.mem_map.mp hv
    have hnone := p.sentBy_first_eq_nil List.prefix_rfl hended.1 (hfirst s hs)
    obtain ⟨w, hw⟩ := p.work_of_not_ended (hfirst s hs) hended.1
    have hmem : (s.1, w.2) ∈ p.streams inputs :=
      List.mem_filterMap.mpr ⟨s, hs, by rw [hw]; rfl⟩
    rw [sentBy_join, hnone, List.nil_append]
    exact hsent s.1 (List.mem_map_of_mem hmem) hended.2

end Abreast

/-! ## A whole run -/

section Brackets

variable {net : Wiring} {j q : List JournalEntry} {v : Nat}

theorem rootActs_eq_nil (h : ∀ e ∈ j, e.act.isBracket = true) : rootActs net j = [] :=
  List.filter_eq_nil_iff.mpr fun e he => by simp [rootWork, h e he]

theorem mem_actsAt_iff {act : Act} : act ∈ actsAt j v ↔ ⟨v, act⟩ ∈ j := by
  refine ⟨fun h => ?_, mem_actsAt⟩
  obtain ⟨e, he, heq⟩ := List.mem_filterMap.mp h
  split at heq
  · rename_i hnode
    cases heq
    exact hnode ▸ he
  · cases heq

/-- All work of a root is in the record of the roots. -/
theorem mem_actsAt_rootActs (hv : net.Root v) {act : Act} (hact : act.isBracket = false) :
    act ∈ actsAt (rootActs net j) v ↔ act ∈ actsAt j v := by
  have hkeep : rootWork net ⟨v, act⟩ = true := by
    simp [rootWork, show net.needs v = [] from hv, hact]
  rw [mem_actsAt_iff, mem_actsAt_iff, rootActs, List.mem_filter, and_iff_left hkeep]

theorem ended_rootActs (hv : net.Root v) : Ended (rootActs net j) v ↔ Ended j v :=
  exists_congr fun _ => mem_actsAt_rootActs hv rfl

theorem sentBy_rootActs (hv : net.Root v) : sentBy (rootActs net j) v = sentBy j v := by
  simp only [sentBy, actsAt, rootActs, List.filterMap_filterMap, List.filterMap_filter]
  refine List.filterMap_congr fun e _ => ?_
  by_cases he : e.node = v
  · have hnone : e.act.isBracket = true → e.act.sent? = none := by
      cases e.act <;> simp [Act.isBracket, Act.sent?]
    subst he
    cases hact : e.act.isBracket with
    | true => simp [rootWork, hact, hnone hact]
    | false => simp [rootWork, hact, show net.needs e.node = [] from hv]
  · simp [he]

theorem Abreast.of_rootActs {roots : List Nat} (h : Abreast (rootActs net j) roots)
    (hroots : ∀ v ∈ roots, net.Root v) : Abreast j roots := by
  obtain ⟨sent, h⟩ := h
  refine ⟨sent, fun v hv hended => ?_⟩
  have hroot := hroots v hv
  rw [← sentBy_rootActs hroot]
  exact h v hv fun hended' => hended ((ended_rootActs hroot).mp hended')

end Brackets

/-- In a run that comes to its end nothing has failed. -/
theorem Bracketed.smooth {g : Graph W} {inputs : Inputs} {world : W} {b : Bracketing}
    (h : Bracketed g inputs world b (.ok ())) :
    b.opened.failure (g.nodes.map (·.key)) = none ∧ b.driving = none := by
  have hnone := h.answers
  cases hopened : b.opened.failure (g.nodes.map (·.key)) with
  | some e => simp [hopened, answer] at hnone
  | none =>
    cases hdriving : b.driving with
    | some e => simp [hopened, hdriving, answer] at hnone
    | none => exact ⟨rfl, rfl⟩

namespace Graph

variable {g : Graph W}

/-- These are the roots that take part in a run, in the order of their keys, with their inputs. -/
structure Drives (g : Graph W) (inputs : Inputs) (l : List (Nat × Payload)) : Prop where
  roots : ∀ id, id ∈ numbersOf l ↔
    ∃ n, g.nodes[id]? = some n ∧ n.isRoot = true ∧ n.pruned = false
  inputs : ∀ s ∈ l, ∃ n, g.nodes[s.1]? = some n ∧ inputs.get? n.key = some s.2
  sorted : l.Pairwise fun s t =>
    ∀ n k, g.nodes[s.1]? = some n → g.nodes[t.1]? = some k → n.key < k.key

theorem drives_driven (h : g.Ready) {inputs : Inputs}
    (hinputs : (g.roots.all fun root => inputs.contains root.1) = true) :
    g.Drives inputs (g.driven inputs) := by
  refine ⟨fun id => ?_, fun s hs => ?_, ?_⟩
  · constructor
    · intro hid
      obtain ⟨s, hs, rfl⟩ := List.mem_map.mp hid
      obtain ⟨n, hn, hroot, hlive, -⟩ := (mem_driven h).mp hs
      exact ⟨n, hn, hroot, hlive⟩
    · rintro ⟨n, hn, hroot, hlive⟩
      exact mem_numbersOf_driven h hinputs hn hroot hlive
  · obtain ⟨n, hn, -, -, hdata⟩ := (mem_driven h).mp hs
    exact ⟨n, hn, hdata⟩
  · have hkeyed : ∀ {key id} {s : Nat × Payload}, (key, id) ∈ g.roots →
        (if (g.nodes[id]?.map (·.pruned)).getD true = true then none
          else (inputs.get? key).map fun data => (id, data)) = some s →
        ∀ n, g.nodes[s.1]? = some n → n.key = key := by
      intro key id s hmem hs n hn
      split at hs
      · cases hs
      · obtain ⟨data, -, rfl⟩ := Option.map_eq_some_iff.mp hs
        obtain ⟨m, hm, rfl, -⟩ := (mem_roots h.distinct).mp hmem
        rw [Option.some.inj (hn.symm.trans hm)]
    have hsorted : g.roots.Pairwise fun a b => a.1 < b.1 := g.index.sorted.filter _
    refine List.pairwise_filterMap.mpr (hsorted.imp_of_mem ?_)
    rintro ⟨key, id⟩ ⟨key', id'⟩ hmem hmem' hlt s hs t ht n k hn hk
    rw [hkeyed hmem hs n hn, hkeyed hmem' ht k hk]
    exact hlt

/-- The roots of a run that comes to its end keep to a schedule. -/
theorem keeps_schedule (h : g.Ready) (inputs : Inputs) {world : W}
    (hinputs : (g.roots.all fun root => inputs.contains root.1) = true)
    (hok : (g.run inputs world).2 = .ok ()) :
    ∃ (p : Script) (rounds : Nat), (∀ s ∈ p.streams (g.driven inputs), s.2.length < rounds) ∧
      rootActs (wiringOf g.nodes) (g.journal inputs world) =
        p.schedule (g.driven inputs) rounds := by
  obtain ⟨b, r, result, hwhole, hjournal, hbracketed, -⟩ :=
    bracketed_whole (fun n hn => (h.fresh n hn).acquired) inputs world
  have hjournal' : g.journal inputs world = b.journal := by
    rw [journal, run, if_pos hinputs, hwhole]
    exact hjournal
  have hresult : result = .ok () := by
    rw [run, if_pos hinputs, hwhole] at hok
    exact hok
  subst hresult
  obtain ⟨hopened, hdriving⟩ := hbracketed.smooth
  obtain ⟨r₁, r₂, hacquire, hdrive, hwork⟩ := hbracketed.drives hopened
  have hopens := g.opens_acquireAll world
  rw [hacquire] at hopens
  obtain ⟨hwiring, hrest⟩ := opening h hopens
  have hdrivable := drivable h inputs
  have hsafe := safe_drive_roots h.wired (lower_receive h.wired g.nodes.length) (g.driven inputs)
    hdrivable (fun s hs => (hrest.roots s.1 (hdrivable.root s hs)).ended) r₁ hwiring rfl
  rw [hdriving] at hdrive
  unfold Procedure.Ensures at hsafe
  rw [hdrive] at hsafe
  obtain ⟨-, p, rounds, hlengths, hacts⟩ := hsafe
  have hstart : rootActs (wiringOf g.nodes) r₁.ledger.journal = [] := rootActs_eq_nil fun e he =>
    Opens.silent hopens e.node e.act (mem_actsAt he)
  have hfront : rootActs (wiringOf g.nodes) b.opened.acquiring = [] :=
    rootActs_eq_nil fun _ => Tries.isBracket
  have hback : rootActs (wiringOf g.nodes) b.closed.releasing = [] := rootActs_eq_nil fun e he => by
    obtain ⟨tried, -, rfl⟩ := List.mem_map.mp he
    rfl
  have hlater : r₂.ledger.journal = b.opened.acquiring ++ b.work := hwork
  rw [hstart, List.nil_append, hlater, rootActs_append, hfront, List.nil_append] at hacts
  refine ⟨p, rounds, hlengths, ?_⟩
  rw [hjournal', Bracketing.journal, rootActs_append, rootActs_append, hfront, hback, hacts,
    List.nil_append, List.append_nil]

/-- In a run that comes to its end the roots take turns. In the order of their keys each takes its
input in and turns it into its chunks. Then each sends a chunk in every round, in the same order,
until it has none left, and is called for its end in the round after. A root with too little
input is called at once. So of two roots that were not called for their end yet none has sent two
chunks more than the other. -/
theorem roots_take_turns (h : g.Built) (inputs : Inputs) (world : W)
    (hok : (g.run inputs world).2 = .ok ()) :
    g.Drives inputs (g.driven inputs) ∧
    (∃ (p : Script) (rounds : Nat), (∀ s ∈ p.streams (g.driven inputs), s.2.length < rounds) ∧
      rootActs (wiringOf g.nodes) (g.journal inputs world) =
        p.schedule (g.driven inputs) rounds) ∧
    ∀ before, before <+: g.journal inputs world →
      ∀ u ∈ numbersOf (g.driven inputs), ∀ v ∈ numbersOf (g.driven inputs),
        ¬ Ended before u → ¬ Ended before v →
          (sentBy before u).length ≤ (sentBy before v).length + 1 := by
  have hinputs := inputs_of_ok hok
  have hdrivable := drivable h.ready inputs
  obtain ⟨p, rounds, hlengths, hacts⟩ := keeps_schedule h.ready inputs hinputs hok
  refine ⟨drives_driven h.ready hinputs, ⟨p, rounds, hlengths, hacts⟩, ?_⟩
  intro before hbefore u hu v hv hu' hv'
  have hprefix : rootActs (wiringOf g.nodes) before <+: p.schedule (g.driven inputs) rounds :=
    hacts ▸ hbefore.filter _
  have habreast := (p.abreast hdrivable.once hprefix).of_rootActs fun m hm => by
    obtain ⟨s, hs, rfl⟩ := List.mem_map.mp hm
    exact hdrivable.root s hs
  exact habreast.differ hu hv hu' hv'

/-! ## Three roots that send different numbers of chunks -/

def lettered : Graph Unit :=
  ⟨"lettered", [Node.new "c" spelling [], Node.new "a" spelling [], Node.new "b" spelling []]⟩

theorem lettered_built : lettered.Built := by
  have hfirst : (Graph.empty "lettered").add "c" spelling [] =
      .ok (0, ⟨"lettered", [Node.new "c" spelling []]⟩) := rfl
  have hpair : Graph.add ⟨"lettered", [Node.new "c" spelling []]⟩ "a" spelling [] =
      .ok (1, ⟨"lettered", [Node.new "c" spelling [], Node.new "a" spelling []]⟩) := rfl
  have hlast : Graph.add ⟨"lettered", [Node.new "c" spelling [], Node.new "a" spelling []]⟩ "b"
      spelling [] = .ok (2, lettered) := rfl
  exact .add (.add (.add (.empty "lettered") hfirst) hpair) hlast

def threeWords : Inputs :=
  ((Dictionary.empty.insert "a" (.literal "xyz")).insert "b" (.literal "")).insert "c"
    (.literal "uv")

/-- The second node has the first turn, and the last too, when the others have ended. -/
theorem longest_word_ends_last :
    (lettered.run threeWords ()).2 = .ok () ∧
      lettered.Drives threeWords (lettered.driven threeWords) ∧
      numbersOf (lettered.driven threeWords) = [1, 2, 0] ∧
      (lettered.journal threeWords ()).filterMap
          (fun e => e.act.sent?.map fun chunk => (e.node, chunk.bytes?)) =
        [(1, some [0x78]), (0, some [0x75]), (1, some [0x79]), (0, some [0x76]),
          (1, some [0x7A])] ∧
      ∀ before, before <+: lettered.journal threeWords () → ¬ Ended before 1 → ¬ Ended before 0 →
        (sentBy before 1).length ≤ (sentBy before 0).length + 1 := by
  have hok : (lettered.run threeWords ()).2 = .ok () := eq_ok_of_isDone (by decide +kernel)
  have hroots : numbersOf (lettered.driven threeWords) = [1, 2, 0] := by decide +kernel
  obtain ⟨hdrives, -, hdiffer⟩ := roots_take_turns lettered_built threeWords () hok
  refine ⟨hok, hdrives, hroots, by decide +kernel, fun before hbefore => ?_⟩
  exact hdiffer before hbefore 1 (by simp [hroots]) 0 (by simp [hroots])

end Graph

end FeatureGraph
