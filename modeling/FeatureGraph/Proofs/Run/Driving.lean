-- How the roots are driven. Between two turns everything below the roots is
-- at rest, and a root has not begun, is sending what it put out, or has
-- ended. There are rounds enough for every root to end.
import FeatureGraph.Proofs.Run.Delivery

namespace FeatureGraph

variable {W : Type} {net : Wiring} {L L' L₀ : Ledger} {u v m id : Nat}

/-! ## Where a root stands -/

/-- How far a root has come. -/
inductive Phase where
  | idle
  /-- It has begun, and still has to send this. -/
  | streaming (rest : Output)
  | done

namespace Phase

/-- The calls that a root has made. -/
inductive Calls : Phase → List Act → Prop
  | idle : Calls .idle []
  | streaming (data : Payload) (rest : Output) {acts : List Act} :
      Attempt true acts → Calls (.streaming rest) (.enqueue 0 data :: acts)
  | done (data : Payload) {closing : List Act} :
      Closing closing → Calls .done (.enqueue 0 data :: closing)

def ended : Phase → Bool
  | .done => true
  | .idle | .streaming _ => false

/-- What it still has to send. -/
def rest : Phase → Output
  | .streaming rest => rest
  | .idle | .done => []

theorem Calls.life {p : Phase} {acts : List Act} (h : p.Calls acts) : RootLife p.ended acts := by
  cases h with
  | idle => exact .idle
  | streaming data _ hattempt => exact .running data hattempt
  | done data hclosing => exact .closed data hclosing

theorem Calls.of_idle {acts : List Act} (h : Phase.idle.Calls acts) : acts = [] := by
  cases h
  rfl

theorem Calls.of_streaming {rest : Output} {acts : List Act}
    (h : (Phase.streaming rest).Calls acts) :
    ∃ data attempt, Attempt true attempt ∧ acts = .enqueue 0 data :: attempt := by
  cases h with
  | streaming data _ hattempt => exact ⟨data, _, hattempt, rfl⟩

theorem Calls.of_ended {p : Phase} {acts : List Act} (h : p.Calls acts) (hended : p.ended = true) :
    ∃ data closing, Closing closing ∧ acts = .enqueue 0 data :: closing := by
  cases h with
  | idle | streaming => cases hended
  | done data hclosing => exact ⟨data, _, hclosing, rfl⟩

/-- Where a root stands after a turn with this left to send. -/
def next : Output → Phase
  | [] => .done
  | _ :: rest => .streaming rest

end Phase

/-- A root between two turns. -/
structure Standing (net : Wiring) (L : Ledger) (v : Nat) (p : Phase) : Prop where
  calls : p.Calls (workAt L.journal v)
  ended : L.ended v = p.ended
  free : p.ended = false → Open L v
  owing : outputOf L.journal v = (sentBy L.journal v).map .ok ++ p.rest
  balanced : Balanced net L.journal v
  known : p.ended = true → ∀ k ∈ net.listeners v, v ∈ L.finalized k

theorem Standing.kept {p : Phase} (h : Standing net L v p) (hkept : Kept net L L' v) :
    Standing net L' v p := by
  refine ⟨?_, hkept.ended.trans h.ended, fun hp => hkept.open (h.free hp), ?_,
    h.balanced.congr hkept.acts fun m hm => by simpa using hkept.received m hm,
    fun hp k hk => (hkept.known k).mpr (h.known hp k hk)⟩
  · rw [workAt_congr hkept.acts]
    exact h.calls
  · rw [outputOf, hkept.acts, sentBy_congr hkept.acts]
    exact h.owing

/-- The whole graph between two turns. -/
structure AtRest (net : Wiring) (phase : Nat → Phase) (L : Ledger) : Prop where
  sound : Sound net L
  quiet : Above net (fun _ => False) 0 L
  roots : ∀ v, net.Root v → Standing net L v (phase v)

/-- After the turn of a root only that root stands elsewhere. -/
theorem AtRest.turn {phase : Nat → Phase} {p : Phase} (h : AtRest net phase L)
    (hid : net.Root id) (hsound : Sound net L') (habove : Above net (fun _ => False) (id + 1) L')
    (haside : ∀ v, Aside net id v → Kept net L L' v) (hstands : Standing net L' id p) :
    AtRest net (Function.update phase id p) L' := by
  refine ⟨hsound, fun m _ hroot => ?_, fun v hv => ?_⟩
  · have hne : m ≠ id := fun heq => hroot (heq ▸ hid)
    rcases Nat.lt_or_ge m id with hlt | hge
    · exact (h.quiet m (Nat.zero_le m) hroot).kept (haside m (.of_lt hlt)) fun hp => hp
    · exact habove m (by omega) hroot
  · by_cases hvid : v = id
    · subst hvid
      simpa using hstands
    · rw [Function.update_of_ne hvid]
      exact (h.roots v hv).kept (haside v ⟨hvid, Or.inr hv⟩)

/-- A root that streams is sending. -/
theorem AtRest.sending {phase : Nat → Phase} {rest : Output} (h : AtRest net phase L)
    (hid : net.Root id) (hphase : phase id = .streaming rest) :
    Sending net (fun _ => False) id L L rest := by
  have hstands := h.roots id hid
  rw [hphase] at hstands
  exact ⟨h.sound, h.quiet.mono (Nat.zero_le _) fun _ _ hp => hp, hstands.free rfl,
    hstands.balanced, hstands.owing, rfl, rfl, rfl, rfl, fun _ _ => Kept.refl⟩

theorem Full.of_root (h : net.Root id) : Full net L id := by
  intro u hu
  rw [h] at hu
  exact absurd hu List.not_mem_nil

theorem Ledger.isFinalized_of_root (h : net.Root id) : L.isFinalized net id = true := by
  simp [Ledger.isFinalized, show net.needs id = [] from h]

/-! ## One turn -/

section Turns

variable {receive : Run.Receiver W} {phase : Nat → Phase} {data : Payload}

/-- Where a root stands after its last call. -/
theorem Completed.standing {acts : List Act} (h : Completed net (fun _ => False) id L₀ L)
    (hattempt : Attempt true acts) (hwork : workAt L₀.journal id = .enqueue 0 data :: acts) :
    Standing net L id .done := by
  obtain ⟨out, hout⟩ := h.work
  refine ⟨?_, h.ended, by simp [Phase.ended], ?_, h.balanced, fun _ => h.known⟩
  · rw [hout, hwork]
    exact .done data (.intro _ hattempt)
  · rw [h.allSent, Phase.rest, List.append_nil]

/-- The first turn: the root takes in its input, works, and ends if that gives nothing. -/
theorem safe_begin (hw : net.Wired) (hr : Receives net receive 0) (hroot : net.Root id)
    (hid : id < net.size) (hlive : net.pruned id = false) (h : AtRest net phase L)
    (hphase : phase id = .idle) :
    Run.Safe net (Broken net) (Run.begin receive id data) L fun out L' =>
      AtRest net (Function.update phase id
        (match out with
          | some out => .streaming out
          | none => .done)) L' := by
  have hstands := h.roots id hroot
  rw [hphase] at hstands
  have hfree := hstands.free rfl
  have hnothing : workAt L.journal id = [] := hstands.calls.of_idle
  have hlife : net.life id = RootLife := net.life_root hroot
  have hcut : ∀ begun {rest}, Attempt true (begun ++ rest) →
      CutShort (net.life id) (.enqueue 0 data :: begun) := fun begun {rest} hattempt =>
    ⟨false, rest, hlife ▸ RootLife.running data hattempt⟩
  -- the input comes in
  have hkept : ∀ v, id ≠ v → Kept net L (L.record id (.enqueue 0 data)) v := fun v hne =>
    .record hne fun hv => absurd hroot (hw.not_root hv)
  have hinput : Sound net (L.record id (.enqueue 0 data)) := by
    refine h.sound.record hfree (fun _ hv => absurd hroot (hw.not_root hv))
      (fun hu => absurd hu (hroot ▸ List.not_mem_nil)) (fun _ h => by cases h)
      (fun _ h => by cases h) ?_ (fun _ => hlive)
    simpa [hnothing, Act.isWork] using hcut [] .waits
  have hflag : (L.record id (.enqueue 0 data)).isFinalized net id = true :=
    Ledger.isFinalized_of_root hroot
  refine Run.safe_bind (Run.safe_enqueueRoot hid ?_)
  refine Run.safe_bind ((Run.Safe.mono (safe_work hid hlive hinput hfree ?_)) fun out L₁ h₁ => ?_)
  · intro begun rest hattempt
    rw [hflag] at hattempt
    simpa [hnothing, Act.isWork] using hcut begun hattempt
  have hsending : Sending net (fun _ => False) id L₁ L₁ (out.getD []) := by
    refine h₁.sending hfree ?_ ?_ ?_
    · have := hstands.owing
      simpa [AllSent, Act.output, Act.sent?, Phase.rest] using this
    · intro m hm
      have := hw.lt hm
      simpa [due, Nat.ne_of_lt this, Act.sent?] using hstands.balanced m hm
    · exact h.quiet.kept (fun m hm hm' => hkept m fun heq => hm' (heq ▸ hroot))
        (fun _ _ hp => hp) |>.mono (Nat.zero_le _) fun _ _ hp => hp
  have haside : ∀ v, Aside net id v → Kept net L L₁ v := fun v hv =>
    (hkept v (Ne.symm hv.1)).trans (h₁.kept v (Ne.symm hv.1))
  obtain ⟨acts, hattempt, hwork⟩ := h₁.work
  rw [hflag] at hattempt
  have hcalls : workAt L₁.journal id = .enqueue 0 data :: acts := by
    simpa [hnothing, Act.isWork] using hwork
  have hended : L₁.ended id = false := by
    rw [h₁.ended]
    exact hstands.ended
  cases out with
  | some out =>
    refine Run.safe_pure (h.turn hroot h₁.sound hsending.above haside ?_)
    refine ⟨?_, hended, fun _ => hsending.free, hsending.owing, hsending.balanced,
      by simp [Phase.ended]⟩
    rw [hcalls]
    exact .streaming data out hattempt
  | none =>
    refine Run.safe_bind ((safe_complete hw (hr.mono (Nat.zero_le _)) hid hlive hsending hended
      (.of_root hroot) fun result => ?_).mono fun _ L₂ h₂ => ?_)
    · rw [hlife, hcalls]
      exact .whole (.closed data (.intro result hattempt))
    · exact Run.safe_pure (h.turn hroot h₂.sound h₂.above
        (fun v hv => (haside v hv).trans (h₂.aside v hv)) (h₂.standing hattempt hcalls))

/-- A later turn: the root sends its next chunk, or ends. -/
theorem safe_take (hw : net.Wired) (hr : Receives net receive 0) (hroot : net.Root id)
    (hid : id < net.size) (hlive : net.pruned id = false) {out : Output} (h : AtRest net phase L)
    (hphase : phase id = .streaming out) :
    Run.Safe net (Broken net) (Run.take receive (id, out.head?)) L fun _ L' =>
      AtRest net (Function.update phase id (.next out)) L' := by
  have hsending := h.sending hroot hphase
  have hstands := h.roots id hroot
  rw [hphase] at hstands
  obtain ⟨data, acts, hattempt, hcalls⟩ := hstands.calls.of_streaming
  cases out with
  | nil =>
    refine (safe_complete hw (hr.mono (Nat.zero_le _)) hid hlive hsending hstands.ended
      (.of_root hroot) fun result => ?_).mono fun _ L₁ h₁ => ?_
    · rw [net.life_root hroot, hcalls]
      exact .whole (.closed data (.intro result hattempt))
    · exact h.turn hroot h₁.sound h₁.above h₁.aside (h₁.standing hattempt hcalls)
  | cons chunk rest =>
    refine (safe_emit hw (hr.mono (Nat.zero_le _)) hsending).mono fun _ L₁ h₁ => ?_
    refine h.turn hroot h₁.sound h₁.above h₁.aside
      ⟨?_, h₁.ended.trans hstands.ended, fun _ => h₁.free, h₁.owing, h₁.balanced,
        by simp [Phase.next, Phase.ended]⟩
    rw [h₁.work, hcalls]
    exact .streaming data rest hattempt

/-! ## All turns -/

/-- The numbers of roots with outputs, or with inputs. -/
abbrev numbersOf {α : Type} (l : List (Nat × α)) : List Nat := l.map Prod.fst

/-- Roots that can be driven together. -/
structure Drivable (net : Wiring) {α : Type} (l : List (Nat × α)) : Prop where
  once : (numbersOf l).Nodup
  root : ∀ s ∈ l, net.Root s.1
  inRange : ∀ s ∈ l, s.1 < net.size
  live : ∀ s ∈ l, net.pruned s.1 = false

theorem Drivable.tail {α : Type} {s : Nat × α} {l : List (Nat × α)}
    (h : Drivable net (s :: l)) : Drivable net l :=
  ⟨(List.nodup_cons.mp h.once).2, fun t ht => h.root t (List.mem_cons_of_mem _ ht),
    fun t ht => h.inRange t (List.mem_cons_of_mem _ ht),
    fun t ht => h.live t (List.mem_cons_of_mem _ ht)⟩

theorem Drivable.head_ne {α : Type} {s t : Nat × α} {l : List (Nat × α)}
    (h : Drivable net (s :: l)) (ht : t ∈ l) : t.1 ≠ s.1 := fun heq =>
  (List.nodup_cons.mp h.once).1 (heq ▸ List.mem_map_of_mem ht)

theorem Drivable.sublist {α β : Type} {l : List (Nat × α)} {l' : List (Nat × β)}
    (h : Drivable net l) (hsub : (numbersOf l').Sublist (numbersOf l)) : Drivable net l' := by
  have hmem : ∀ s ∈ l', ∃ t ∈ l, t.1 = s.1 := fun s hs =>
    List.mem_map.mp (hsub.mem (List.mem_map_of_mem hs))
  refine ⟨h.once.sublist hsub, fun s hs => ?_, fun s hs => ?_, fun s hs => ?_⟩
  · obtain ⟨t, ht, heq⟩ := hmem s hs
    exact heq ▸ h.root t ht
  · obtain ⟨t, ht, heq⟩ := hmem s hs
    exact heq ▸ h.inRange t ht
  · obtain ⟨t, ht, heq⟩ := hmem s hs
    exact heq ▸ h.live t ht

/-- One round: each root takes one turn. -/
theorem safe_round (hw : net.Wired) (hr : Receives net receive 0) (streams : List (Nat × Output))
    (hstreams : Drivable net streams) (h : AtRest net phase L)
    (hphase : ∀ s ∈ streams, phase s.1 = .streaming s.2) :
    Run.Safe net (Broken net)
      (Procedure.each (Run.take receive) (streams.map fun (id, out) => (id, out.head?))) L
      fun _ L' => ∃ phase', AtRest net phase' L' ∧ (∀ s ∈ streams, phase' s.1 = .next s.2) ∧
        ∀ v, v ∉ numbersOf streams → phase' v = phase v := by
  induction streams generalizing phase L with
  | nil => exact Run.safe_pure ⟨phase, h, by simp, fun _ _ => rfl⟩
  | cons s rest ih =>
    have hs : s ∈ s :: rest := List.mem_cons_self
    refine Run.safe_bind ((safe_take hw hr (hstreams.root s hs) (hstreams.inRange s hs)
      (hstreams.live s hs) h
      (hphase s hs)).mono fun _ L₁ h₁ => ?_)
    refine (ih hstreams.tail h₁ fun t ht => ?_).mono ?_
    · rw [Function.update_of_ne (hstreams.head_ne ht)]
      exact hphase t (List.mem_cons_of_mem _ ht)
    · rintro - L₂ ⟨phase', hrest, hnext, hother⟩
      have hhead : phase' s.1 = .next s.2 := by
        rw [hother s.1 (List.nodup_cons.mp hstreams.once).1, Function.update_self]
      refine ⟨phase', hrest, ?_, fun v hv => ?_⟩
      · intro t ht
        rcases List.mem_cons.mp ht with rfl | ht
        · exact hhead
        · exact hnext t ht
      · simp only [numbersOf, List.map_cons, List.mem_cons, not_or] at hv
        rw [hother v hv.2, Function.update_of_ne hv.1]

/-- The roots that are not done after a round, with what is left to them. -/
def leftOver (streams : List (Nat × Output)) : List (Nat × Output) :=
  streams.filterMap fun (id, out) =>
    match out with
    | [] => none
    | _ :: rest => some (id, rest)

theorem mem_leftOver {streams : List (Nat × Output)} {rest : Output} :
    (id, rest) ∈ leftOver streams ↔ ∃ chunk, (id, chunk :: rest) ∈ streams := by
  simp only [leftOver, List.mem_filterMap]
  constructor
  · rintro ⟨⟨v, out⟩, hmem, heq⟩
    cases out with
    | nil => cases heq
    | cons chunk rest =>
      cases heq
      exact ⟨chunk, hmem⟩
  · rintro ⟨chunk, hmem⟩
    exact ⟨(id, chunk :: rest), hmem, rfl⟩

theorem leftOver_sublist (streams : List (Nat × Output)) :
    (numbersOf (leftOver streams)).Sublist (numbersOf streams) := by
  refine map_filterMap_sublist (fun s t h => ?_) streams
  obtain ⟨id, _ | ⟨chunk, rest⟩⟩ := s
  · cases h
  · cases h
    rfl

/-- Rounds enough for all of these roots bring each to its end. -/
theorem safe_turns (hw : net.Wired) (hr : Receives net receive 0) (rounds : Nat)
    (streams : List (Nat × Output)) (hstreams : Drivable net streams)
    (hrounds : ∀ s ∈ streams, s.2.length < rounds) (h : AtRest net phase L)
    (hphase : ∀ s ∈ streams, phase s.1 = .streaming s.2) :
    Run.Safe net (Broken net) (Procedure.each (Run.take receive) (Run.turns rounds streams)) L
      fun _ L' => ∃ phase', AtRest net phase' L' ∧ (∀ s ∈ streams, phase' s.1 = .done) ∧
        ∀ v, v ∉ numbersOf streams → phase' v = phase v := by
  induction rounds generalizing streams phase L with
  | zero =>
    refine Run.safe_pure ⟨phase, h, fun s hs => ?_, fun _ _ => rfl⟩
    exact absurd (hrounds s hs) (Nat.not_lt_zero _)
  | succ rounds ih =>
    rw [Run.turns, Procedure.each_append]
    refine Run.safe_bind ((safe_round hw hr streams hstreams h hphase).mono ?_)
    rintro - L₁ ⟨phase₁, h₁, hnext, hother⟩
    have hleft : ∀ s ∈ leftOver streams, ∃ chunk, (s.1, chunk :: s.2) ∈ streams := fun s hs =>
      mem_leftOver.mp hs
    refine (ih (leftOver streams) (hstreams.sublist (leftOver_sublist streams)) ?_ h₁ ?_).mono ?_
    · intro s hs
      obtain ⟨chunk, hmem⟩ := hleft s hs
      have := hrounds _ hmem
      simpa using this
    · intro s hs
      obtain ⟨chunk, hmem⟩ := hleft s hs
      exact hnext _ hmem
    · rintro - L₂ ⟨phase₂, h₂, hover, hother₂⟩
      refine ⟨phase₂, h₂, ?_, fun v hv => ?_⟩
      · rintro ⟨v, out⟩ hs
        cases out with
        | nil =>
          rw [hother₂ v, hnext _ hs]
          · rfl
          · intro hmem
            obtain ⟨t, ht, heq⟩ := List.mem_map.mp hmem
            obtain ⟨chunk, hchunk⟩ := hleft t ht
            have := List.inj_on_of_nodup_map hstreams.once hs hchunk heq.symm
            simp at this
        | cons chunk rest => exact hover (v, rest) (mem_leftOver.mpr ⟨chunk, hs⟩)
      · rw [hother₂ v fun hmem => hv ((leftOver_sublist streams).mem hmem), hother v hv]

theorem length_lt_roundsFor {streams : List (Nat × Output)} {s : Nat × Output}
    (hs : s ∈ streams) : s.2.length < Run.roundsFor streams := by
  have hgrows : ∀ (l : List (Nat × Output)) (n : Nat),
      n ≤ l.foldl (fun n stream => max n (stream.2.length + 1)) n := by
    intro l
    induction l with
    | nil => exact fun n => Nat.le_refl n
    | cons t rest ih => exact fun n => Nat.le_trans (Nat.le_max_left ..) (ih _)
  have hmem : ∀ (l : List (Nat × Output)) (n : Nat), s ∈ l →
      s.2.length < l.foldl (fun n stream => max n (stream.2.length + 1)) n := by
    intro l
    induction l with
    | nil => exact fun n h => absurd h List.not_mem_nil
    | cons t rest ih =>
      intro n h
      rcases List.mem_cons.mp h with rfl | h
      · exact Nat.lt_of_lt_of_le (Nat.le_max_right n (s.2.length + 1)) (hgrows rest _)
      · exact ih _ h
  exact hmem streams 0 hs

/-- The first turns of all roots. -/
theorem safe_beginAll (hw : net.Wired) (hr : Receives net receive 0)
    (inputs : List (Nat × Payload)) (hinputs : Drivable net inputs) (h : AtRest net phase L)
    (hphase : ∀ s ∈ inputs, phase s.1 = .idle) :
    Run.Safe net (Broken net) (Run.beginAll receive inputs) L fun streams L' =>
      ∃ phase', AtRest net phase' L' ∧ (numbersOf streams).Sublist (numbersOf inputs) ∧
        (∀ s ∈ streams, phase' s.1 = .streaming s.2) ∧
        (∀ v ∈ numbersOf inputs, v ∉ numbersOf streams → phase' v = .done) ∧
        ∀ v, v ∉ numbersOf inputs → phase' v = phase v := by
  induction inputs generalizing phase L with
  | nil => exact Run.safe_pure ⟨phase, h, .slnil, by simp, by simp, fun _ _ => rfl⟩
  | cons s rest ih =>
    obtain ⟨id, data⟩ := s
    have hs : (id, data) ∈ (id, data) :: rest := List.mem_cons_self
    refine Run.safe_bind ((safe_begin hw hr (hinputs.root _ hs) (hinputs.inRange _ hs)
      (hinputs.live _ hs) h
      (hphase _ hs)).mono fun out L₁ h₁ => ?_)
    refine Run.safe_bind ((ih hinputs.tail h₁ fun t ht => ?_).mono ?_)
    · rw [Function.update_of_ne (hinputs.head_ne ht)]
      exact hphase t (List.mem_cons_of_mem _ ht)
    rintro others L₂ ⟨phase', hrest, hsub, hstreaming, hover, hother⟩
    have hid : id ∉ numbersOf rest := (List.nodup_cons.mp hinputs.once).1
    have hhead := hother id hid
    rw [Function.update_self] at hhead
    have hwaiting : ∀ v, v ∉ numbersOf ((id, data) :: rest) → phase' v = phase v := fun v hv => by
      simp only [numbersOf, List.map_cons, List.mem_cons, not_or] at hv
      rw [hother v hv.2, Function.update_of_ne hv.1]
    cases out with
    | some out =>
      refine Run.safe_pure ⟨phase', hrest, hsub.cons_cons _, ?_, ?_, hwaiting⟩
      · intro t ht
        rcases List.mem_cons.mp ht with rfl | ht
        · exact hhead
        · exact hstreaming t ht
      · intro v hv hnot
        simp only [numbersOf, List.map_cons, List.mem_cons, not_or] at hv hnot
        exact hover v (hv.resolve_left hnot.1) hnot.2
    | none =>
      refine Run.safe_pure ⟨phase', hrest, hsub.cons _, hstreaming, ?_, hwaiting⟩
      intro v hv hnot
      rcases List.mem_cons.mp hv with rfl | hv
      · exact hhead
      · exact hover v hv hnot

/-- Driving brings every root that is driven to its end, and everything after them to rest. -/
theorem safe_drive (hw : net.Wired) (hr : Receives net receive 0)
    (inputs : List (Nat × Payload)) (hinputs : Drivable net inputs)
    (h : AtRest net (fun _ => .idle) L) :
    Run.Safe net (Broken net) (Run.drive receive inputs) L fun _ L' =>
      ∃ phase, AtRest net phase L' ∧ (∀ v ∈ numbersOf inputs, phase v = .done) ∧
        ∀ v, v ∉ numbersOf inputs → phase v = .idle := by
  refine Run.safe_bind ((safe_beginAll hw hr inputs hinputs h fun _ _ => rfl).mono ?_)
  rintro streams L₁ ⟨phase₁, h₁, hsub, hstreaming, hover, hother⟩
  refine (safe_turns hw hr _ streams (hinputs.sublist hsub) (fun s hs => length_lt_roundsFor hs)
    h₁ hstreaming).mono ?_
  rintro - L₂ ⟨phase₂, h₂, hover₂, hother₂⟩
  refine ⟨phase₂, h₂, fun v hv => ?_, fun v hv => ?_⟩
  · by_cases hmem : v ∈ numbersOf streams
    · obtain ⟨s, hs, rfl⟩ := List.mem_map.mp hmem
      exact hover₂ s hs
    · rw [hother₂ v hmem, hover v hv hmem]
  · rw [hother₂ v fun hmem => hv (hsub.mem hmem), hother v hv]

end Turns

end FeatureGraph
