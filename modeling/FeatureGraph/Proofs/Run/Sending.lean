-- How a node sends what it put out, and how it ends. A chunk goes down the
-- graph at once, depth first, so while a node sends, everything below it is
-- at rest; and it is at rest again when the node sends its next chunk.
-- `Receives` is the law of one delivery that this rests on.
import FeatureGraph.Proofs.Run.Balance

namespace FeatureGraph

variable {W : Type} {net : Wiring} {P P' : Nat → Prop} {L L₀ L₁ L₂ : Ledger}
  {u v m id lo : Nat} {act : Act}

/-! ## What stays as it was -/

/-- The node is as it was; what it sent may have come in since, `gain m` at a listener `m`. -/
structure Same (net : Wiring) (gain : Nat → List Payload) (L₁ L₂ : Ledger) (v : Nat) : Prop where
  acts : actsAt L₂.journal v = actsAt L₁.journal v
  ended : L₂.ended v = L₁.ended v
  finalized : L₂.finalized v = L₁.finalized v
  enqueued : L₂.enqueued v = L₁.enqueued v
  known : ∀ m, v ∈ L₂.finalized m ↔ v ∈ L₁.finalized m
  received : ∀ m ∈ net.listeners v,
    received net L₂.journal m v = received net L₁.journal m v ++ gain m

/-- The node is as it was, and no chunk of it has come in since. -/
abbrev Kept (net : Wiring) : Ledger → Ledger → Nat → Prop := Same net fun _ => []

theorem Kept.refl : Kept net L L v := ⟨rfl, rfl, rfl, rfl, fun _ => Iff.rfl, by simp⟩

theorem Same.trans {gain gain' : Nat → List Payload} (h : Same net gain L L₁ v)
    (h' : Same net gain' L₁ L₂ v) : Same net (fun m => gain m ++ gain' m) L L₂ v := by
  refine ⟨h'.acts.trans h.acts, h'.ended.trans h.ended, h'.finalized.trans h.finalized,
    h'.enqueued.trans h.enqueued, fun m => (h'.known m).trans (h.known m), fun m hm => ?_⟩
  rw [h'.received m hm, h.received m hm, List.append_assoc]

theorem Kept.trans (h : Kept net L L₁ v) (h' : Kept net L₁ L₂ v) : Kept net L L₂ v :=
  Same.trans h h'

theorem Same.trans_kept {gain : Nat → List Payload} (h : Same net gain L L₁ v)
    (h' : Kept net L₁ L₂ v) : Same net gain L L₂ v := by
  simpa using Same.trans h h'

theorem Kept.record (hne : id ≠ v)
    (hgain : id ∈ net.listeners v → act.received? ((net.needs id).idxOf v) = none) :
    Kept net L (L.record id act) v := by
  refine ⟨by simp [hne], rfl, rfl, rfl, fun _ => Iff.rfl, fun m hm => ?_⟩
  by_cases hid : id = m
  · subst hid
    simp [hgain hm]
  · simp [hid]

theorem Kept.hear (hne : id ≠ v) : Kept net L (L.hear id u) v := by
  refine ⟨rfl, rfl, rfl, ?_, fun _ => Iff.rfl, by simp [Ledger.hear]⟩
  simp [Ledger.hear, Ne.symm hne]

theorem Kept.finish (hne : id ≠ v) : Kept net L (L.finish id) v := by
  refine ⟨rfl, ?_, rfl, rfl, fun _ => Iff.rfl, by simp [Ledger.finish]⟩
  simp [Ledger.finish, Ne.symm hne]

theorem Kept.close (hne : id ≠ v) (hm : m ≠ v) : Kept net L (L.close id m) v := by
  refine ⟨rfl, rfl, ?_, rfl, fun k => ?_, by simp [Ledger.close]⟩
  · simp [Ledger.close, Ne.symm hm]
  · simp only [Ledger.close]
    split
    · simp [Ne.symm hne]
    · rfl

theorem Same.isFinalized {gain : Nat → List Payload} (h : Same net gain L₁ L₂ v) :
    L₂.isFinalized net v = L₁.isFinalized net v := by
  simp only [Ledger.isFinalized, h.finalized, h.enqueued]

theorem Same.open {gain : Nat → List Payload} (h : Same net gain L₁ L₂ v) (hopen : Open L₁ v) :
    Open L₂ v := fun m hm => hopen m ((h.known m).mp hm)

/-! ## Nodes at rest -/

/-- A node with providers between two deliveries. It has sent all it put out, and it has ended
if it should have; only nodes in `P` may still wait for the sign that a provider has ended. -/
structure Quiet (net : Wiring) (P : Nat → Prop) (L : Ledger) (m : Nat) : Prop where
  life : Life (L.ended m) (workAt L.journal m)
  allSent : AllSent L.journal m
  balanced : Balanced net L.journal m
  free : L.ended m = false → Open L m
  known : L.ended m = true → ∀ k ∈ net.listeners m, m ∈ L.finalized k
  settled : ¬ P m → L.isFinalized net m = true → L.ended m = true

/-- All nodes with providers from a number on are at rest. -/
def Above (net : Wiring) (P : Nat → Prop) (lo : Nat) (L : Ledger) : Prop :=
  ∀ m, lo ≤ m → ¬ net.Root m → Quiet net P L m

theorem Quiet.kept (h : Quiet net P L₁ m) (hkept : Kept net L₁ L₂ m) (hP : P m → P' m) :
    Quiet net P' L₂ m := by
  refine ⟨?_, h.allSent.congr hkept.acts, h.balanced.congr hkept.acts ?_, ?_, ?_, ?_⟩
  · rw [hkept.ended, workAt_congr hkept.acts]
    exact h.life
  · intro k hk
    simpa using hkept.received k hk
  · intro hended
    exact hkept.open (h.free (hkept.ended ▸ hended))
  · intro hended k hk
    exact (hkept.known k).mpr (h.known (hkept.ended ▸ hended) k hk)
  · intro hm hfinalized
    rw [hkept.isFinalized] at hfinalized
    rw [hkept.ended]
    exact h.settled (fun hp => hm (hP hp)) hfinalized

theorem Above.kept (h : Above net P lo L₁)
    (hkept : ∀ m, lo ≤ m → ¬ net.Root m → Kept net L₁ L₂ m) (hP : ∀ m, lo ≤ m → P m → P' m) :
    Above net P' lo L₂ := fun m hm hroot => (h m hm hroot).kept (hkept m hm hroot) (hP m hm)

theorem Above.mono {hi : Nat} (h : Above net P lo L) (hle : lo ≤ hi)
    (hP : ∀ m, hi ≤ m → P m → P' m) : Above net P' hi L := fun m hm hroot =>
  (h m (Nat.le_trans hle hm) hroot).kept Kept.refl (hP m hm)

/-- The work of one node never touches the nodes before it, nor another root. -/
def Aside (net : Wiring) (id v : Nat) : Prop := v ≠ id ∧ (v < id ∨ net.Root v)

theorem Aside.of_lt (h : v < id) : Aside net id v := ⟨Nat.ne_of_lt h, Or.inl h⟩

theorem Aside.listener (hw : net.Wired) (h : Aside net id v) (hm : m ∈ net.listeners id) :
    Aside net m v := by
  have hlt := hw.lt hm
  refine ⟨fun heq => ?_, h.2.imp_left fun hv => Nat.lt_trans hv hlt⟩
  subst heq
  rcases h.2 with hv | hroot
  · exact Nat.lt_asymm hv hlt
  · exact hw.not_root hm hroot

/-! ## The law of a delivery -/

/-- A delivery from `u` at `id` leaves everything from `id` on at rest, and of the rest changes
only what has come in from `u`. -/
def Receives (net : Wiring) (receive : Run.Receiver W) (lo : Nat) : Prop :=
  ∀ (P : Nat → Prop) (id u : Nat) (data : Option Payload) (L : Ledger), lo ≤ id →
    id ∈ net.listeners u → Sound net L → Above net (fun m => P m ∨ m = id) id L →
    (data.isSome = true → Open L u) →
    received net L.journal id u ++ data.toList <+: due net L.journal id u →
    Run.Safe net (Broken net) (receive id data u) L fun _ L' =>
      Sound net L' ∧ Above net P id L' ∧ (∀ v, Aside net id v → v ≠ u → Kept net L L' v) ∧
        Same net (fun m => if m = id then data.toList else []) L L' u

theorem Receives.mono {receive : Run.Receiver W} {hi : Nat} (h : Receives net receive lo)
    (hle : lo ≤ hi) : Receives net receive hi := fun P id u data L hid =>
  h P id u data L (Nat.le_trans hle hid)

/-- What has come in of one chunk, or of one sign, after these listeners. -/
def copies (data : Option Payload) (listeners : List Nat) (m : Nat) : List Payload :=
  (List.replicate (listeners.count m) data.toList).flatten

theorem copies_append (data : Option Payload) (first rest : List Nat) (m : Nat) :
    copies data (first ++ rest) m = copies data first m ++ copies data rest m := by
  unfold copies
  rw [List.count_append, List.replicate_add, List.flatten_append]

theorem copies_snoc (data : Option Payload) (listeners : List Nat) (id m : Nat) :
    copies data (listeners ++ [id]) m =
      copies data listeners m ++ if m = id then data.toList else [] := by
  rw [copies_append]
  congr 1
  by_cases h : m = id
  · simp [copies, h]
  · simp [copies, h, Ne.symm h]

theorem copies_some (d : Payload) (listeners : List Nat) (m : Nat) :
    copies (some d) listeners m = List.replicate (listeners.count m) d := by
  unfold copies
  induction listeners.count m with
  | zero => rfl
  | succ n ih => rw [List.replicate_succ, List.flatten_cons, ih, List.replicate_succ]; rfl

theorem copies_none (listeners : List Nat) : copies none listeners = fun _ => [] := by
  funext m
  simp [copies]

section Sends

variable {receive : Run.Receiver W} {data : Option Payload}

theorem safe_push (hw : net.Wired) (hr : Receives net receive (id + 1)) (hsound : Sound net L)
    (habove : Above net (fun m => P m ∨ m ∈ net.listeners id) (id + 1) L)
    (hopen : data.isSome = true → Open L id)
    (howed : ∀ m ∈ net.listeners id, due net L.journal m id =
      received net L.journal m id ++ copies data (net.listeners id) m) :
    Run.Safe net (Broken net) (Run.push receive id data) L fun _ L' =>
      Sound net L' ∧ Above net P (id + 1) L' ∧ (∀ v, Aside net id v → Kept net L L' v) ∧
        Same net (copies data (net.listeners id)) L L' id := by
  refine Run.safe_bind (Run.safe_listeners ?_)
  -- `done` are the listeners that the data has reached
  let I : List Nat → Ledger → Prop := fun rest L' => ∃ done, done ++ rest = net.listeners id ∧
    Sound net L' ∧ Above net (fun m => P m ∨ m ∈ rest) (id + 1) L' ∧
      (∀ v, Aside net id v → Kept net L L' v) ∧ Same net (copies data done) L L' id
  refine (Run.safe_each (I := I) ?_ (net.listeners id) ?_).mono ?_
  · rintro x rest L' ⟨done, hdone, hsound, habove, haside, hsame⟩
    have hx : x ∈ net.listeners id := by simp [← hdone]
    have hlt := hw.lt hx
    have hbelow : Above net (fun m => (P m ∨ m ∈ rest) ∨ m = x) x L' := by
      refine habove.mono hlt fun m _ hm => ?_
      rcases hm with hm | hm
      · exact Or.inl (Or.inl hm)
      · rcases List.mem_cons.mp hm with hm | hm
        · exact Or.inr hm
        · exact Or.inl (Or.inr hm)
    -- of what is on its way, `x` has not had the last
    have hflow : received net L'.journal x id ++ data.toList <+: due net L'.journal x id := by
      have hcopies : copies data (net.listeners id) x =
          copies data (done ++ [x]) x ++ copies data rest x := by
        rw [← copies_append, List.append_assoc, List.singleton_append, hdone]
      rw [hsame.received x hx, due, sentBy_congr hsame.acts, ← due, howed x hx, hcopies, copies_snoc,
        if_pos rfl]
      exact ⟨copies data rest x, by simp only [List.append_assoc]⟩
    refine (hr (fun m => P m ∨ m ∈ rest) x id data L' hlt hx hsound hbelow
      (fun hsome => hsame.open (hopen hsome)) hflow).mono ?_
    rintro - L'' ⟨hsound', habove', haside', hsame'⟩
    refine ⟨done ++ [x], by simpa using hdone, hsound', ?_, ?_, ?_⟩
    · intro m hm hroot
      rcases Nat.lt_or_ge m x with hlow | hhigh
      · refine (habove m hm hroot).kept (haside' m (.of_lt hlow) (by omega)) fun hp => ?_
        refine hp.imp_right fun hmem => ?_
        exact (List.mem_cons.mp hmem).resolve_left (Nat.ne_of_lt hlow)
      · exact habove' m hhigh hroot
    · intro v hv
      exact (haside v hv).trans (haside' v (hv.listener hw hx) hv.1)
    · have := hsame.trans hsame'
      simp only [← copies_snoc] at this
      exact this
  · exact ⟨[], rfl, hsound, habove, fun _ _ => Kept.refl, Kept.refl⟩
  · rintro - L' ⟨done, hdone, hsound, habove, haside, hsame⟩
    rw [List.append_nil] at hdone
    subst hdone
    exact ⟨hsound, habove.mono (Nat.le_refl _) (by simp), haside, hsame⟩

/-- A node that still has to send `rest` of what it put out, and else is as it was. -/
structure Sending (net : Wiring) (P : Nat → Prop) (id : Nat) (L₀ L : Ledger) (rest : Output) :
    Prop where
  sound : Sound net L
  above : Above net P (id + 1) L
  free : Open L id
  balanced : Balanced net L.journal id
  owing : outputOf L.journal id = (sentBy L.journal id).map .ok ++ rest
  work : workAt L.journal id = workAt L₀.journal id
  ended : L.ended id = L₀.ended id
  finalized : L.finalized id = L₀.finalized id
  enqueued : L.enqueued id = L₀.enqueued id
  aside : ∀ v, Aside net id v → Kept net L₀ L v

theorem Sending.note {rest : Output} {chunk : Payload} (h : Sending net P id L₀ L rest) :
    Sound net (L.record id (.emit chunk)) := by
  refine h.sound.record h.free (fun _ _ => rfl) (fun _ => rfl) (fun _ h => by cases h)
    (fun _ h => by cases h) ?_ (fun h => by cases h)
  simpa [Act.isWork] using h.sound.life id

theorem safe_emit (hw : net.Wired) (hr : Receives net receive (id + 1)) {rest : Output}
    {chunk : Except ComponentError Payload} (h : Sending net P id L₀ L (chunk :: rest)) :
    Run.Safe net (Broken net) (Run.emit receive id chunk) L fun _ L' =>
      Sending net P id L₀ L' rest := by
  refine Run.safe_bind (Run.safe_demand (fun data hdata => ?_) fun e he => ⟨h.sound, id, Or.inr ⟨e, ?_⟩⟩)
  swap
  · rw [h.owing, he]
    simp
  refine Run.safe_bind (Run.safe_note ?_)
  have hkept : ∀ v, id ≠ v → Kept net L (L.record id (.emit data)) v := fun v hne =>
    .record hne fun _ => rfl
  have habove : Above net (fun m => P m ∨ m ∈ net.listeners id) (id + 1)
      (L.record id (.emit data)) :=
    h.above.kept (fun m hm _ => hkept m (by omega)) fun _ _ => Or.inl
  have howed : ∀ m ∈ net.listeners id, due net (L.record id (.emit data)).journal m id =
      received net (L.record id (.emit data)).journal m id ++
        copies (some data) (net.listeners id) m := fun m hm => by
    rw [due_record, received_record, ← h.balanced m hm, copies_some, hw.linked hm id]
    simp [Act.received?, Act.sent?]
  refine (safe_push hw hr h.note habove (fun _ => h.free) howed).mono ?_
  rintro - L' ⟨hsound, habove, haside, hsame⟩
  have hsent : sentBy L'.journal id = sentBy L.journal id ++ [data] := by
    rw [sentBy_congr hsame.acts]
    simp [Act.sent?]
  refine ⟨hsound, habove, hsame.open h.free, ?_, ?_, ?_, ?_, ?_, ?_, ?_⟩
  · intro m hm
    rw [hsame.received m hm, ← howed m hm, due, due, sentBy_congr hsame.acts]
  · have hout : outputOf L'.journal id = outputOf L.journal id := by
      simp [outputOf, hsame.acts, Ledger.record, Act.output]
    rw [hout, h.owing, hsent, hdata]
    simp
  · rw [workAt_congr hsame.acts, ← h.work]
    simp [Act.isWork]
  · rw [hsame.ended, ← h.ended]
    rfl
  · rw [hsame.finalized, ← h.finalized]
    rfl
  · rw [hsame.enqueued, ← h.enqueued]
    rfl
  · intro v hv
    exact ((h.aside v hv).trans (hkept v (Ne.symm hv.1))).trans (haside v hv)

theorem safe_emits (hw : net.Wired) (hr : Receives net receive (id + 1)) {out : Output}
    (h : Sending net P id L₀ L out) :
    Run.Safe net (Broken net) (Procedure.each (Run.emit receive id) out) L fun _ L' =>
      Sending net P id L₀ L' [] :=
  Run.safe_each (I := fun rest L => Sending net P id L₀ L rest)
    (fun _ _ _ h => safe_emit hw hr h) out h

/-! ## The end of a node -/

/-- A node that has just ended: it has sent everything, its listeners know it, and everything
after it is at rest. -/
structure Completed (net : Wiring) (P : Nat → Prop) (id : Nat) (L₀ L : Ledger) : Prop where
  sound : Sound net L
  above : Above net P (id + 1) L
  ended : L.ended id = true
  work : ∃ out, workAt L.journal id = workAt L₀.journal id ++ [.lastChunk (.ok out)]
  allSent : AllSent L.journal id
  balanced : Balanced net L.journal id
  known : ∀ k ∈ net.listeners id, id ∈ L.finalized k
  aside : ∀ v, Aside net id v → Kept net L₀ L v

theorem mem_actsAt_of_mem_workAt {j : List JournalEntry} (h : act ∈ workAt j id) :
    act ∈ actsAt j id := (List.mem_filter.mp h).1

/-- The record just after a node's last call. -/
theorem Sending.lastCall (h : Sending net P id L₀ L []) (hlive : net.pruned id = false)
    (hfull : Full net L id)
    (hlife : ∀ result, CutShort (net.life id) (workAt L.journal id ++ [.lastChunk result]))
    (result : Except ComponentError Output) :
    Sound net ((L.record id (.lastChunk result)).finish id) := by
  have hfinish : Sound net (L.finish id) := h.sound.finish hfull
  refine hfinish.record h.free (fun _ _ => rfl) (fun _ => rfl)
    (fun _ _ => by simp [Ledger.finish]) (fun _ h => by cases h) ?_ (fun _ => hlive)
  simpa [Act.isWork] using hlife result

/-- What the last call puts out is still to be sent. -/
theorem Sending.lastOutput {out : Output} (h : Sending net P id L₀ L [])
    (hsound : Sound net ((L.record id (.lastChunk (.ok out))).finish id)) :
    Sending net P id ((L.record id (.lastChunk (.ok out))).finish id)
      ((L.record id (.lastChunk (.ok out))).finish id) out := by
  refine ⟨hsound, ?_, h.free, ?_, ?_, rfl, rfl, rfl, rfl, fun _ _ => Kept.refl⟩
  · refine h.above.kept (fun m hm _ => ?_) fun _ _ hp => hp
    exact Kept.trans (.record (by omega) fun _ => rfl) (.finish (by omega))
  · intro m hm
    have := h.balanced m hm
    simpa [due, Act.received?, Act.sent?] using this
  · have := h.owing
    simp only [List.append_nil] at this
    simp [Act.output, Act.sent?, this]

/-- Telling the listeners one by one that the node has ended. -/
theorem safe_finalizeAll (hw : net.Wired) (hsound : Sound net L) (habove : Above net P (id + 1) L)
    (hended : L.ended id = true) (hsealed : Sealed net L.journal id) :
    Run.Safe (W := W) net (Broken net)
      (Procedure.each (Run.finalize id) (net.listeners id)) L fun _ L' =>
      Sound net L' ∧ Above net (fun m => P m ∨ m ∈ net.listeners id) (id + 1) L' ∧
        L'.journal = L.journal ∧ L'.ended = L.ended ∧
        (∀ k ∈ net.listeners id, id ∈ L'.finalized k) ∧
        ∀ v, Aside net id v → Kept net L L' v := by
  let I : List Nat → Ledger → Prop := fun rest L' => ∃ done, done ++ rest = net.listeners id ∧
    Sound net L' ∧ Above net (fun m => P m ∨ m ∈ net.listeners id) (id + 1) L' ∧
      L'.journal = L.journal ∧ L'.ended = L.ended ∧ (∀ k ∈ done, id ∈ L'.finalized k) ∧
      ∀ v, Aside net id v → Kept net L L' v
  refine (Run.safe_each (I := I) ?_ (net.listeners id) ?_).mono ?_
  · rintro l rest L' ⟨done, hdone, hsound, habove, hjournal, hends, hknown, haside⟩
    have hl : l ∈ net.listeners id := by simp [← hdone]
    have hneeds := hw.mem_needs hl
    refine Run.safe_finalize (hw.inRange hneeds) ⟨done ++ [l], by simpa using hdone, ?_, ?_,
      hjournal, hends, ?_, ?_⟩
    · exact hsound.close hneeds (hends ▸ hended) (hjournal ▸ hsealed)
    · intro m hm hroot
      by_cases hml : m = l
      · subst hml
        obtain ⟨hlife, hallSent, hbalanced, hfree, hclosed, -⟩ := habove m hm hroot
        refine ⟨hlife, hallSent, hbalanced, ?_, ?_, fun hp => absurd (Or.inr hl) hp⟩
        · intro hended k hk
          refine hfree hended k ?_
          simp only [Ledger.close] at hk
          split at hk
          · refine (List.mem_insert_iff.mp hk).resolve_left ?_
            omega
          · exact hk
        · intro hended k hk
          simp only [Ledger.close]
          split
          · exact List.mem_insert_of_mem (hclosed hended k hk)
          · exact hclosed hended k hk
      · exact (habove m hm hroot).kept (.close (by omega) (Ne.symm hml)) fun hp => hp
    · intro k hk
      simp only [Ledger.close]
      rcases List.mem_append.mp hk with hk | hk
      · split
        · exact List.mem_insert_of_mem (hknown k hk)
        · exact hknown k hk
      · rw [List.mem_singleton.mp hk, if_pos rfl]
        exact List.mem_insert_self
    · intro v hv
      refine (haside v hv).trans (.close (Ne.symm hv.1) fun heq => ?_)
      exact (hv.listener hw hl).1 heq.symm
  · exact ⟨[], rfl, hsound, habove.mono (Nat.le_refl _) fun _ _ => Or.inl, rfl, rfl, by simp,
      fun _ _ => Kept.refl⟩
  · rintro - L' ⟨done, hdone, h⟩
    rw [List.append_nil] at hdone
    exact hdone ▸ h

theorem safe_complete (hw : net.Wired) (hr : Receives net receive (id + 1)) (hid : id < net.size)
    (hlive : net.pruned id = false) (h : Sending net P id L₀ L []) (hended : L.ended id = false)
    (hfull : Full net L id)
    (hlife : ∀ result, CutShort (net.life id) (workAt L.journal id ++ [.lastChunk result])) :
    Run.Safe net (Broken net) (Run.complete receive id) L fun _ L' =>
      Completed net P id L₀ L' := by
  refine Run.safe_bind (Run.safe_ended hid ?_)
  rw [hended]
  refine Run.safe_bind (Run.safe_lastChunk hid fun result => ?_)
  have hlast := h.lastCall hlive hfull hlife result
  refine Run.safe_bind (Run.safe_demand (fun out hout => ?_) fun e he =>
    ⟨hlast, id, Or.inl ⟨.lastChunk result, by simp, by rw [he]; rfl⟩⟩)
  subst hout
  refine Run.safe_bind ((safe_emits hw hr (h.lastOutput hlast)).mono fun _ L₂ h₂ => ?_)
  have hwork : workAt L₂.journal id = workAt L₀.journal id ++ [.lastChunk (.ok out)] := by
    rw [h₂.work, ← h.work]
    simp [Act.isWork]
  have hended₂ : L₂.ended id = true := by
    rw [h₂.ended]
    simp [Ledger.finish]
  have hsealed : Sealed net L₂.journal id := by
    refine ⟨⟨out, mem_actsAt_of_mem_workAt (by simp [hwork])⟩, ?_, h₂.balanced⟩
    have := h₂.owing
    rw [List.append_nil] at this
    exact this
  have haside : ∀ v, Aside net id v → Kept net L₀ L₂ v := fun v hv =>
    ((h.aside v hv).trans (Kept.trans (.record (Ne.symm hv.1) fun _ => rfl)
      (.finish (Ne.symm hv.1)))).trans (h₂.aside v hv)
  refine Run.safe_bind (Run.safe_listeners ?_)
  refine Run.safe_bind ((safe_finalizeAll hw h₂.sound h₂.above hended₂ hsealed).mono ?_)
  rintro - L₃ ⟨hsound₃, habove₃, hjournal, hends, hknown, haside₃⟩
  have howed : ∀ m ∈ net.listeners id, due net L₃.journal m id =
      received net L₃.journal m id ++ copies none (net.listeners id) m := fun m hm => by
    rw [copies_none, List.append_nil, hjournal]
    exact (hsealed.balanced m hm).symm
  refine (safe_push hw hr hsound₃ habove₃ (by simp) howed).mono ?_
  rintro - L₄ ⟨hsound₄, habove₄, haside₄, hsame⟩
  rw [copies_none] at hsame
  rw [← hjournal] at hsealed hwork
  have hsealed₄ : Sealed net L₄.journal id := hsealed.congr hsame.acts fun m hm => by
    simpa using hsame.received m hm
  refine ⟨hsound₄, habove₄, ?_, ⟨out, ?_⟩, hsealed₄.allSent, hsealed₄.balanced, ?_, ?_⟩
  · rw [hsame.ended, hends]
    exact hended₂
  · rw [workAt_congr hsame.acts]
    exact hwork
  · intro k hk
    exact (hsame.known k).mpr (hknown k hk)
  · intro v hv
    exact ((haside v hv).trans (haside₃ v hv)).trans (haside₄ v hv)

end Sends

end FeatureGraph
