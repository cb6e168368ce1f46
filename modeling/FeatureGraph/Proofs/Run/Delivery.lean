-- How a delivery goes: data is taken in, the node works if it can, and it
-- ends if all its input has come. The law of a delivery is proved by
-- induction on how deep the graph still is below the node.
import FeatureGraph.Proofs.Run.Sending
import FeatureGraph.Proofs.Run.Steps

namespace FeatureGraph

variable {W : Type} {net : Wiring} {P : Nat → Prop} {L L' L₀ L₁ L₂ : Ledger} {u v m id lo : Nat}

/-! ## Taking in -/

/-- What comes in of a delivery. -/
def arrivals (net : Wiring) (id u : Nat) (data : Option Payload) : List Act :=
  data.toList.map fun d => .enqueue ((net.needs id).idxOf u) d

/-- A node that has taken in what a delivery brings, and has not yet worked on it. -/
structure TakenIn (net : Wiring) (id u : Nat) (data : Option Payload) (L L' : Ledger) : Prop where
  sound : Sound net L'
  acts : actsAt L'.journal id = actsAt L.journal id ++ arrivals net id u data
  ended : L'.ended = L.ended
  finalized : L'.finalized = L.finalized
  kept : ∀ v, id ≠ v → v ≠ u → Kept net L L' v
  fed : Same net (fun m => if m = id then data.toList else []) L L' u
  sent : ∀ m ∈ net.listeners id, received net L'.journal m id = received net L.journal m id

theorem safe_takeIn (hw : net.Wired) (hu : id ∈ net.listeners u) (data : Option Payload)
    (hsound : Sound net L) (hfree : Open L id) (hopen : data.isSome = true → Open L u)
    (hflow : received net L.journal id u ++ data.toList <+: due net L.journal id u)
    (hlife : CutShort (net.life id) (workAt L.journal id ++ arrivals net id u data)) :
    Run.Safe (W := W) net (Broken net) (Run.takeIn id u data) L fun _ L' =>
      TakenIn net id u data L L' := by
  have hneeds := hw.mem_needs hu
  have hlt := hw.lt hu
  cases data with
  | none =>
    refine Run.safe_pure ⟨hsound, by simp [arrivals], rfl, rfl, fun _ _ _ => Kept.refl, ?_,
      fun _ _ => rfl⟩
    simpa using Kept.refl
  | some data =>
    refine Run.safe_enqueueFrom (hw.inRange hneeds) ?_
    have hgain : ∀ {v}, u ≠ v →
        (Act.enqueue ((net.needs id).idxOf u) data).received? ((net.needs id).idxOf v) = none :=
      fun {v} hne => by simp [Act.received?, idxOf_ne hneeds hne]
    have hheard : Sound net (L.enter id (.enqueue ((net.needs id).idxOf u) data) (some u)) := by
      refine hsound.enter hfree (fun {v m} hv _ => ?_) (fun {v} _ => ?_) (fun hv => ?_)
        (fun _ h => by cases h) (fun _ h => by cases h) ?_ (fun _ => hw.live hu)
      · exact hgain fun heq => hopen rfl m (heq ▸ hv)
      · by_cases heq : u = v
        · simp [heq, Act.received?]
        · simp [heq, hgain heq]
      · cases hv
        refine ⟨hneeds, ?_⟩
        simpa [due, Act.received?, Act.sent?] using hflow
      · simpa [Act.isWork, arrivals] using hlife
    refine ⟨hheard, ?_, rfl, rfl, ?_, ?_, ?_⟩
    · simp [arrivals]
    · intro v hne hv
      exact Kept.trans (.record hne fun _ => hgain (Ne.symm hv)) (.hear hne)
    · refine ⟨?_, rfl, rfl, ?_, fun _ => Iff.rfl, fun m _ => ?_⟩
      · simp [Nat.ne_of_gt hlt]
      · simp [Ledger.record, Ledger.hear, Nat.ne_of_lt hlt]
      · by_cases hm : id = m
        · subst hm
          simp [Act.received?]
        · simp [hm, Ne.symm hm]
    · intro m hm
      have := hw.lt hm
      simp [Nat.ne_of_lt this]

/-! ## Working -/

/-- A node that has worked once, and has not yet sent what that put out. -/
structure Worked (net : Wiring) (id : Nat) (out : Output) (L L' : Ledger) : Prop where
  sound : Sound net L'
  work : ∃ acts, Attempt (L.isFinalized net id) acts ∧
    workAt L'.journal id = workAt L.journal id ++ acts
  sent : sentBy L'.journal id = sentBy L.journal id
  output : outputOf L'.journal id = outputOf L.journal id ++ out
  ended : L'.ended = L.ended
  finalized : L'.finalized = L.finalized
  enqueued : L'.enqueued = L.enqueued
  kept : ∀ v, id ≠ v → Kept net L L' v
  received : ∀ m u, received net L'.journal m u = received net L.journal m u

theorem safe_work (hid : id < net.size) (hlive : net.pruned id = false) (hsound : Sound net L)
    (hfree : Open L id)
    (hlife : ∀ begun rest, Attempt (L.isFinalized net id) (begun ++ rest) →
      CutShort (net.life id) (workAt L.journal id ++ begun)) :
    Run.Safe (W := W) net (Broken net) (Run.work id) L fun out L' =>
      Worked net id (out.getD []) L L' := by
  refine Run.safe_bind (Run.safe_dequeue hid fun got => ?_)
  have hdequeue : ∀ rest, Attempt (L.isFinalized net id)
      (.dequeue (L.isFinalized net id) got :: rest) →
      Sound net (L.record id (.dequeue (L.isFinalized net id) got)) := by
    intro rest hattempt
    refine hsound.record hfree (fun _ _ => rfl) (fun _ => rfl) (fun _ h => by cases h) ?_ ?_
      (fun _ => hlive)
    · intro got' heq
      have hflag : L.isFinalized net id = true := by
        injection heq
      exact hsound.full_of_isFinalized hflag
    · simpa [Act.isWork] using hlife [_] rest hattempt
  have hkept : ∀ v, id ≠ v → Kept net L (L.record id (.dequeue (L.isFinalized net id) got)) v :=
    fun v hne => .record hne fun _ => rfl
  cases got with
  | none =>
    refine Run.safe_pure ⟨hdequeue [] .waits, ⟨_, .waits, ?_⟩, ?_, ?_, rfl, rfl, rfl, hkept, ?_⟩
    · simp [Act.isWork]
    · simp [Act.sent?]
    · simp [Act.output]
    · simp [Act.received?]
  | some data =>
    refine Run.safe_bind (Run.safe_transform hid fun result => ?_)
    have htransform : Sound net ((L.record id (.dequeue (L.isFinalized net id) (some data))).record
        id (.transform data result)) := by
      refine (hdequeue [_] (.works data result)).record hfree (fun _ _ => rfl) (fun _ => rfl)
        (fun _ h => by cases h) (fun _ h => by cases h) ?_ (fun _ => hlive)
      simpa [Act.isWork] using hlife [_, _] [] (.works data result)
    refine Run.safe_bind (Run.safe_demand (fun out hout => ?_) fun e he =>
      ⟨htransform, id, Or.inl ⟨.transform data result, by simp, by rw [he]; rfl⟩⟩)
    subst hout
    refine Run.safe_pure ⟨htransform, ⟨_, .works data (.ok out), ?_⟩, ?_, ?_, rfl, rfl, rfl, ?_, ?_⟩
    · simp [Act.isWork]
    · simp [Act.sent?]
    · simp [Act.output]
    · exact fun v hne => (hkept v hne).trans (.record hne fun _ => rfl)
    · simp [Act.received?]

/-! ## A whole delivery -/

section Deliver

variable {receive : Run.Receiver W} {data : Option Payload}

/-- A node that takes in data does not have all of its input: the sender has not ended. -/
theorem Sound.not_isFinalized (h : Sound net L) (hu : u ∈ net.needs id) (hopen : Open L u) :
    L.isFinalized net id = false := by
  by_contra hflag
  rw [Bool.not_eq_false] at hflag
  exact hopen id (h.full_of_isFinalized hflag u hu).1

/-- Whatever a node does with what a delivery brings fits into its life. -/
theorem cut_of_attempt {acts begun rest : List Act} {finalized : Bool} (h : Deliveries acts)
    (hdata : data.isSome = true → finalized = false)
    (hattempt : Attempt finalized (begun ++ rest)) :
    CutShort Life (acts ++ arrivals net id u data ++ begun) := by
  rw [List.append_assoc]
  cases finalized with
  | false =>
    have hdelivery : Delivery ((arrivals net id u data ++ begun) ++ rest) := by
      cases data with
      | none => exact .sign hattempt
      | some d => exact .data _ d hattempt
    exact hdelivery.cut h
  | true =>
    cases data with
    | none =>
      have hclosing : Closing ((arrivals net id u none ++ begun) ++
          (rest ++ [.lastChunk (.ok [])])) := by
        simpa [arrivals] using hattempt.closing
      exact hclosing.cut h
    | some d => simp at hdata

/-- Before its first chunk, a node owes all that its work put out. -/
theorem Worked.sending {out : Output} (h : Worked net id out L₁ L₂) (hfree : Open L₁ id)
    (hallSent : AllSent L₁.journal id) (hbalanced : Balanced net L₁.journal id)
    (habove : Above net P (id + 1) L₁) : Sending net P id L₂ L₂ out := by
  refine ⟨h.sound, habove.kept (fun m hm _ => h.kept m (by omega)) fun _ _ hp => hp, ?_, ?_, ?_,
    rfl, rfl, rfl, rfl, fun _ _ => Kept.refl⟩
  · intro m hm
    rw [h.finalized] at hm
    exact hfree m hm
  · intro m hm
    rw [h.received, due, h.sent]
    exact hbalanced m hm
  · rw [h.output, h.sent, hallSent]

theorem TakenIn.sentBy_eq (h : TakenIn net id u data L L₁) :
    sentBy L₁.journal id = sentBy L.journal id := by
  unfold sentBy
  rw [h.acts]
  cases data <;> simp [arrivals, Act.sent?]

theorem TakenIn.allSent (h : TakenIn net id u data L L₁) (hallSent : AllSent L.journal id) :
    AllSent L₁.journal id := by
  unfold AllSent
  rw [h.sentBy_eq, ← hallSent, outputOf, h.acts, List.flatMap_append]
  cases data <;> simp [arrivals, Act.output, outputOf]

theorem TakenIn.balanced (h : TakenIn net id u data L L₁) (hbalanced : Balanced net L.journal id) :
    Balanced net L₁.journal id := by
  intro m hm
  rw [h.sent m hm, due, h.sentBy_eq]
  exact hbalanced m hm

theorem TakenIn.work (h : TakenIn net id u data L L₁) :
    workAt L₁.journal id = workAt L.journal id ++ arrivals net id u data := by
  unfold workAt
  rw [h.acts, List.filter_append]
  cases data <;> simp [arrivals, Act.isWork]

/-- What a whole delivery leaves, put together from its parts. -/
theorem TakenIn.aside (h : TakenIn net id u data L L₁) (hlt : u < id)
    (hkept : ∀ v, Aside net id v → Kept net L₁ L₂ v) :
    (∀ v, Aside net id v → v ≠ u → Kept net L L₂ v) ∧
      Same net (fun m => if m = id then data.toList else []) L L₂ u :=
  ⟨fun v hv hne => (h.kept v (Ne.symm hv.1) hne).trans (hkept v hv),
    h.fed.trans_kept (hkept u (.of_lt hlt))⟩

/-- A delivery at a node that has ended: only the sign of an end can still come. -/
theorem quiet_of_ended (hquiet : Quiet net (fun m => P m ∨ m = id) L id)
    (hended : L.ended id = true) : Quiet net P L id :=
  ⟨hquiet.life, hquiet.allSent, hquiet.balanced, hquiet.free, hquiet.known, fun _ _ => hended⟩

theorem Above.of_quiet (h : Above net P (id + 1) L) (hid : Quiet net P L id) :
    Above net P id L := by
  intro m hm hroot
  rcases Nat.eq_or_lt_of_le hm with heq | hlt
  · exact heq ▸ hid
  · exact h m hlt hroot

/-- The end of a delivery: once all input is said to have come, the node is completed. -/
theorem safe_settle (hw : net.Wired) (hr : Receives net receive (id + 1)) (hid : id < net.size)
    (hlive : net.pruned id = false) (hroot : ¬ net.Root id) {before attempt : List Act}
    (h : Sending net P id L₀ L []) (hended : L.ended id = false) (hbefore : Deliveries before)
    (hwork : workAt L.journal id = before ++ (arrivals net id u data ++ attempt))
    (hattempt : Attempt (L.isFinalized net id) attempt)
    (hdata : data.isSome = true → L.isFinalized net id = false) :
    Run.Safe net (Broken net) (do
      let finalized ← Run.look id false (·.isFinalized)
      if finalized then Run.complete receive id else pure ()) L fun _ L' =>
        Sound net L' ∧ Above net P id L' ∧ ∀ v, Aside net id v → Kept net L₀ L' v := by
  have hlife : net.life id = Life := net.life_not_root hroot
  refine Run.safe_bind (Run.safe_isFinalized hid ?_)
  cases hfinalized : L.isFinalized net id with
  | true =>
    rw [hfinalized] at hattempt
    have hnone : data = none := by
      cases data with
      | none => rfl
      | some d => simp [hdata rfl] at hfinalized
    subst hnone
    have hclosed : ∀ result, Life true (workAt L.journal id ++ [.lastChunk result]) := by
      intro result
      rw [hwork, List.append_assoc]
      simpa [arrivals] using Life.closed hbefore (.intro result hattempt)
    refine (safe_complete hw hr hid hlive h hended (h.sound.full_of_isFinalized hfinalized)
      fun result => hlife ▸ .whole (hclosed result)).mono fun _ L₁ h₁ => ?_
    obtain ⟨last, hlast⟩ := h₁.work
    refine ⟨h₁.sound, h₁.above.of_quiet ⟨?_, h₁.allSent, h₁.balanced, ?_, fun _ => h₁.known,
      fun _ _ => h₁.ended⟩, h₁.aside⟩
    · rw [h₁.ended, hlast, ← h.work]
      exact hclosed _
    · simp [h₁.ended]
  | false =>
    rw [hfinalized] at hattempt
    refine Run.safe_pure ⟨h.sound, h.above.of_quiet ⟨?_, ?_, h.balanced, fun _ => h.free,
      by simp [hended], fun _ hm => ?_⟩, h.aside⟩
    · rw [hended, hwork]
      refine .running (hbefore.snoc ?_)
      cases data with
      | none => exact .sign hattempt
      | some d => exact .data _ d hattempt
    · have := h.owing
      rw [List.append_nil] at this
      exact this
    · rw [hfinalized] at hm
      cases hm

/-- A delivery keeps the law of deliveries if the deliveries below it do. -/
theorem receives_deliver (hw : net.Wired) (hr : Receives net receive (lo + 1)) :
    Receives net (Run.deliver receive) lo := by
  intro P id u data L hlo hu hsound habove hopen hflow
  have hneeds := hw.mem_needs hu
  have hid : id < net.size := hw.inRange hneeds
  have hlt := hw.lt hu
  have hroot := hw.not_root hu
  have hr' : Receives net receive (id + 1) := hr.mono (Nat.succ_le_succ hlo)
  have hquiet := habove id (Nat.le_refl _) hroot
  have hbelow : Above net P (id + 1) L :=
    habove.mono (Nat.le_succ _) fun m hm hp => hp.resolve_right (Nat.ne_of_gt hm)
  rw [Run.deliver_eq]
  refine Run.safe_bind (Run.safe_closed hid ?_)
  rw [hw.live hu, Bool.false_or]
  cases hended : L.ended id with
  | true =>
    have hnone : data = none := by
      cases data with
      | none => rfl
      | some d => exact absurd (hsound.full hended u hneeds).1 (hopen rfl id)
    subst hnone
    refine Run.safe_pure ⟨hsound, hbelow.of_quiet (quiet_of_ended hquiet hended),
      fun _ _ _ => Kept.refl, ?_⟩
    simpa using Kept.refl
  | false =>
    have hfree := hquiet.free hended
    have hacts : Deliveries (workAt L.journal id) := (hended ▸ hquiet.life).deliveries
    have hlife : net.life id = Life := net.life_not_root hroot
    have hcut : ∀ finalized begun {rest}, (data.isSome = true → finalized = false) →
        Attempt finalized (begun ++ rest) →
        CutShort (net.life id) (workAt L.journal id ++ arrivals net id u data ++ begun) :=
      fun _ _ {_} hdata hattempt => hlife ▸ cut_of_attempt hacts hdata hattempt
    refine Run.safe_bind ((safe_takeIn hw hu data hsound hfree hopen hflow ?_).mono
      fun _ L₁ h₁ => ?_)
    · simpa using hcut false [] (fun _ => rfl) .waits
    have hdata : data.isSome = true → L₁.isFinalized net id = false := fun hsome =>
      h₁.sound.not_isFinalized hneeds (h₁.fed.open (hopen hsome))
    have hfree₁ : Open L₁ id := fun m hm => hfree m (h₁.finalized ▸ hm)
    have hbelow₁ : Above net P (id + 1) L₁ :=
      hbelow.kept (fun m hm _ => h₁.kept m (by omega) (by omega)) fun _ _ hp => hp
    refine Run.safe_bind ((safe_work hid (hw.live hu) h₁.sound hfree₁ ?_).mono fun out L₂ h₂ => ?_)
    · intro begun rest hattempt
      rw [h₁.work]
      exact hcut _ begun hdata hattempt
    refine Run.safe_bind ((safe_emits hw hr' (h₂.sending hfree₁ (h₁.allSent hquiet.allSent)
      (h₁.balanced hquiet.balanced) hbelow₁)).mono fun _ L₃ h₃ => ?_)
    obtain ⟨acts, hattempt, hwork⟩ := h₂.work
    have hflag : L₃.isFinalized net id = L₁.isFinalized net id := by
      simp only [Ledger.isFinalized, h₃.finalized, h₂.finalized, h₃.enqueued, h₂.enqueued]
    have hended₃ : L₃.ended id = false := by
      rw [h₃.ended, h₂.ended, h₁.ended]
      exact hended
    have hwork₃ : workAt L₃.journal id =
        workAt L.journal id ++ (arrivals net id u data ++ acts) := by
      rw [h₃.work, hwork, h₁.work, List.append_assoc]
    refine (safe_settle hw hr' hid (hw.live hu) hroot h₃ hended₃ hacts hwork₃ (hflag ▸ hattempt)
      (hflag ▸ hdata)).mono fun _ L₄ h₄ => ?_
    obtain ⟨hsound₄, habove₄, hkept₄⟩ := h₄
    refine ⟨hsound₄, habove₄, ?_⟩
    exact h₁.aside hlt fun v hv => (h₂.kept v (Ne.symm hv.1)).trans (hkept₄ v hv)

/-- The law of deliveries holds for a receiver that may go as deep as the graph does. -/
theorem receives_receive (hw : net.Wired) (depth lo : Nat) (hdepth : net.size ≤ depth + lo) :
    Receives (W := W) net (Run.receive depth) lo := by
  induction depth generalizing lo with
  | zero =>
    intro P id u data L hlo hu
    have := hw.inRange (hw.mem_needs hu)
    omega
  | succ depth ih => exact receives_deliver hw (ih (lo + 1) (by omega))

end Deliver

end FeatureGraph
