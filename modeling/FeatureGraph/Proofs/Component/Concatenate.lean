-- The conduct of a concatenation. It holds back until all of its input has
-- come, and then puts out, in one piece, the bytes from each place of its
-- needs, one place after the other, in whatever order they came in.
import FeatureGraph.Component.Concatenate
import FeatureGraph.Proofs.Run.Conduct
import FeatureGraph.Proofs.Run.LifeCycle

namespace FeatureGraph

variable {W : Type}

/-- The bytes of chunks, joined. -/
def Payload.joined (chunks : List Payload) : Bytes := chunks.flatMap fun data => data.bytes?.getD []

namespace Component

/-! ## Buffers -/

namespace Concatenate

variable {data : Payload} {input i k : Nat} {buffers : List (List Payload)} {chunks : List Payload}

theorem join_eq_ok {bs : Bytes} (h : join chunks = .ok bs) : bs = Payload.joined chunks := by
  induction chunks generalizing bs with
  | nil =>
    cases h
    rfl
  | cons chunk rest ih =>
    rw [join] at h
    cases hbytes : chunk.bytes? with
    | none =>
      rw [hbytes] at h
      cases h
    | some first =>
      rw [hbytes] at h
      dsimp only at h
      cases hrest : join rest with
      | error e =>
        rw [hrest] at h
        cases h
      | ok more =>
        rw [hrest] at h
        cases h
        rw [ih hrest, Payload.joined, Payload.joined, List.flatMap_cons, hbytes]
        rfl

/-- Only chunks that are like bytes are joined. -/
theorem bytes_of_join {bs : Bytes} (h : join chunks = .ok bs) :
    ∀ chunk ∈ chunks, chunk.bytes?.isSome = true := by
  induction chunks generalizing bs with
  | nil => simp
  | cons chunk rest ih =>
    rw [join] at h
    cases hbytes : chunk.bytes? with
    | none =>
      rw [hbytes] at h
      cases h
    | some first =>
      rw [hbytes] at h
      cases hrest : join rest with
      | error e =>
        rw [hrest] at h
        cases h
      | ok more => exact List.forall_mem_cons.mpr ⟨by rw [hbytes]; rfl, ih hrest⟩

theorem join_of_bytes (h : ∀ chunk ∈ chunks, chunk.bytes?.isSome = true) :
    ∃ bs, join chunks = .ok bs := by
  induction chunks with
  | nil => exact ⟨[], rfl⟩
  | cons chunk rest ih =>
    obtain ⟨hchunk, hrest⟩ := List.forall_mem_cons.mp h
    obtain ⟨first, hfirst⟩ := Option.isSome_iff_exists.mp hchunk
    obtain ⟨more, hmore⟩ := ih hrest
    exact ⟨first ++ more, by rw [join, hfirst, hmore]; rfl⟩

/-- A payload goes to the front of the buffer of its place. -/
theorem getElem?_push : (push data input buffers)[i]?.getD [] =
    (if input = i then [data] else []) ++ buffers[i]?.getD [] := by
  induction input generalizing buffers i with
  | zero => cases buffers <;> cases i <;> simp [push]
  | succ input ih => cases buffers <;> cases i <;> simp [push, ih]

theorem length_push_le (hinput : input < k) (hlength : buffers.length ≤ k) :
    (push data input buffers).length ≤ k := by
  induction input generalizing buffers k with
  | zero =>
    cases buffers with
    | nil => simpa [push] using Nat.succ_le_of_lt hinput
    | cons buffer rest => simpa [push] using hlength
  | succ input ih =>
    cases k with
    | zero => omega
    | succ k =>
      cases buffers with
      | nil =>
        have hpush : (push data input []).length ≤ k := ih (by omega) (Nat.zero_le k)
        simpa [push] using hpush
      | cons buffer rest => simpa [push] using ih (by omega) (by simpa using hlength)

end Concatenate

/-! ## Holding back -/

/-- An aggregator takes nothing out while a provider may still send. -/
theorem aggregator_waits {c : Component W} {s s' : c.State} {acts : List Act} {got : Option Payload}
    (h : c.aggregator.Runs s acts s') (hmem : Act.dequeue false got ∈ acts) : got = none := by
  obtain ⟨before, after, heq⟩ := List.append_of_mem hmem
  obtain ⟨s₁, s₂, -, hdoes⟩ := h.at heq
  generalize hact : Act.dequeue false got = act at hdoes
  cases hdoes with
  | dequeue finalized _ cache w =>
    obtain ⟨rfl, rfl⟩ := Act.dequeue.inj hact
    rfl
  | enqueue | transform | lastChunk | emit => cases hact

/-- What a concatenation holds back after these calls. -/
structure Collects (acts : List Act) (s : Buffered) : Prop where
  waits : s.emitted = false
  buffers : ∀ i, (s.buffers[i]?.getD []).reverse = acts.filterMap (Act.received? i)
  places : ∀ k, (∀ input data, Act.enqueue input data ∈ acts → input < k) → s.buffers.length ≤ k

theorem collects_runs {acts : List Act} {s : (concatenate (W := W)).aggregator.State}
    (h : (concatenate (W := W)).aggregator.Runs concatenate.aggregator.start acts s)
    (hnot : ∀ got, Act.dequeue true got ∉ acts) : Collects acts s := by
  induction h with
  | nil => exact ⟨rfl, fun _ => rfl, fun k _ => Nat.zero_le k⟩
  | @snoc acts act s₁ s₂ _ hdoes ih =>
    have hcollects := ih fun got hmem => hnot got (List.mem_append_left _ hmem)
    have hsame : (∀ i, act.received? i = none) → Collects (acts ++ [act]) s₁ := fun hnone =>
      ⟨hcollects.waits, fun i => by simp [hcollects.buffers, hnone],
        fun k hk => hcollects.places k fun input data hmem =>
          hk input data (List.mem_append_left _ hmem)⟩
    cases hdoes with
    | enqueue data input _ cache w =>
      refine ⟨hcollects.waits, fun i => ?_, fun k hk => ?_⟩
      · change ((Concatenate.push data input s₁.buffers)[i]?.getD []).reverse = _
        rw [Concatenate.getElem?_push, List.reverse_append, hcollects.buffers,
          List.filterMap_append]
        by_cases hi : input = i <;> simp [Act.received?, hi]
      · refine Concatenate.length_push_le (hk input data (by simp)) ?_
        exact hcollects.places k fun input data hmem => hk input data (List.mem_append_left _ hmem)
    | dequeue finalized _ cache w =>
      cases finalized with
      | true => exact absurd (List.mem_append_right _ List.mem_cons_self) (hnot _)
      | false => exact hsame fun _ => rfl
    | transform data _ w =>
      have hstate : ((concatenate (W := W)).aggregator.transform data s₁ w).2.1 = s₁ := by
        cases data <;> rfl
      rw [hstate]
      exact hsame fun _ => rfl
    | lastChunk _ w => exact hsame fun _ => rfl
    | emit chunk _ => exact hsame fun _ => rfl

/-- What it holds back comes out place by place. -/
theorem Collects.flatten {acts : List Act} {s : Buffered} (h : Collects acts s) {k : Nat}
    (hk : ∀ input data, Act.enqueue input data ∈ acts → input < k) :
    (s.buffers.map (·.reverse)).flatten =
      (List.range k).flatMap fun i => acts.filterMap (Act.received? i) := by
  rw [← List.flatMap_def, flatMap_eq_range _ (h.places k hk)]
  refine List.flatMap_congr fun i _ => ?_
  rw [← h.buffers]
  cases s.buffers[i]? <;> rfl

end Component

/-! ## The life of a concatenation -/

/-- A node that waits puts out nothing. -/
theorem Deliveries.output {acts : List Act} (h : Deliveries acts)
    (hwaits : ∀ data, Act.dequeue false (some data) ∉ acts) : acts.flatMap Act.output = [] := by
  have hattempt : ∀ {attempt}, Attempt false attempt →
      (∀ data, Act.dequeue false (some data) ∉ attempt) → attempt.flatMap Act.output = [] := by
    rintro _ (_ | ⟨data, result⟩) hnot
    · rfl
    · exact absurd List.mem_cons_self (hnot data)
  induction h with
  | nil => rfl
  | @snoc acts delivery _ hdelivery ih =>
    have hrest : ∀ data, Act.dequeue false (some data) ∉ delivery := fun data hmem =>
      hwaits data (List.mem_append_right _ hmem)
    rw [List.flatMap_append, ih fun data hmem => hwaits data (List.mem_append_left _ hmem),
      List.nil_append]
    cases hdelivery with
    | data input data ha =>
      have hnone := hattempt ha fun other hmem => hrest other (List.mem_cons_of_mem _ hmem)
      rw [List.flatMap_cons, hnone]
      rfl
    | sign ha => exact hattempt ha hrest

/-- Only work puts out something. -/
theorem flatMap_output_work (acts : List Act) :
    (acts.filter Act.isWork).flatMap Act.output = acts.flatMap Act.output := by
  induction acts with
  | nil => rfl
  | cons act rest ih =>
    rw [List.filter_cons, List.flatMap_cons, ← ih]
    cases act with
    | enqueue | dequeue | transform | lastChunk => rfl
    | acquire | emit | release => rfl

/-- And only work takes something in. -/
theorem filterMap_received_work (acts : List Act) (i : Nat) :
    (acts.filter Act.isWork).filterMap (Act.received? i) = acts.filterMap (Act.received? i) := by
  rw [List.filterMap_filter]
  exact List.filterMap_congr fun act _ => by cases act <;> rfl

namespace Component

variable {acts : List Act} {s : (concatenate (W := W)).aggregator.State}

/-- What a concatenation takes out when all has come is what it has collected. -/
theorem Collects.taken {s' : (concatenate (W := W)).aggregator.State} {got : Option Payload}
    (h : Collects acts s)
    (hdoes : (concatenate (W := W)).aggregator.Does s (.dequeue true got) s') :
    got = some (.inputs (s.buffers.map (·.reverse))) := by
  generalize hact : Act.dequeue true got = act at hdoes
  cases hdoes with
  | dequeue finalized _ cache w =>
    obtain ⟨rfl, rfl⟩ := Act.dequeue.inj hact
    simp [aggregator, concatenate, h.waits]
  | enqueue | transform | lastChunk | emit => cases hact

/-- What it takes out when all has come is what came before. -/
theorem concatenate_takes {before back : List Act} {got : Option Payload}
    (h : (concatenate (W := W)).aggregator.Runs concatenate.aggregator.start acts s)
    (hfront : Deliveries (before.filter Act.isWork))
    (heq : acts = before ++ .dequeue true got :: back) :
    ∃ s₁, Collects before s₁ ∧ got = some (.inputs (s₁.buffers.map (·.reverse))) := by
  obtain ⟨s₁, s₂, hruns, hdoes⟩ := h.at heq
  have hcollects : Collects before s₁ := collects_runs hruns fun got hmem => by
    have := hfront.early _ (List.mem_filter.mpr ⟨hmem, rfl⟩)
    cases this
  exact ⟨s₁, hcollects, hcollects.taken hdoes⟩

/-- Work that does not fail joins what was taken out, in one piece. -/
theorem concatenate_joins {buffers : List (List Payload)} {result : Except ComponentError Output}
    (h : (concatenate (W := W)).aggregator.Runs concatenate.aggregator.start acts s)
    (hmem : Act.transform (.inputs buffers) result ∈ acts)
    (hsmooth : ∀ data e, Act.transform data (.error e) ∉ acts) :
    (∀ chunk ∈ buffers.flatten, chunk.bytes?.isSome = true) ∧
      result = .ok [.ok (.bytes (Payload.joined buffers.flatten))] := by
  obtain ⟨before, after, heq⟩ := List.append_of_mem hmem
  obtain ⟨s₁, s₂, -, hdoes⟩ := h.at heq
  have hresult : result = (Concatenate.join buffers.flatten).map fun bs => [.ok (.bytes bs)] := by
    generalize hact : Act.transform (.inputs buffers) result = act at hdoes
    cases hdoes with
    | transform data _ w =>
      obtain ⟨rfl, rfl⟩ := Act.transform.inj hact
      rfl
    | enqueue | dequeue | lastChunk | emit => cases hact
  cases hjoin : Concatenate.join buffers.flatten with
  | error e =>
    rw [hresult, hjoin] at hmem
    exact absurd hmem (hsmooth _ e)
  | ok bs =>
    refine ⟨Concatenate.bytes_of_join hjoin, ?_⟩
    rw [hresult, hjoin, Concatenate.join_eq_ok hjoin]
    rfl

theorem concatenate_ends {result : Except ComponentError Output}
    (h : (concatenate (W := W)).aggregator.Runs concatenate.aggregator.start acts s)
    (hmem : Act.lastChunk result ∈ acts) : result = .ok [] := by
  obtain ⟨before, after, heq⟩ := List.append_of_mem hmem
  obtain ⟨s₁, s₂, -, hdoes⟩ := h.at heq
  generalize hact : Act.lastChunk result = act at hdoes
  cases hdoes with
  | lastChunk _ w =>
    cases hact
    rfl
  | enqueue | dequeue | transform | emit => cases hact

/-- A concatenation that has not ended has put out nothing. -/
theorem concatenate_open
    (h : (concatenate (W := W)).aggregator.Runs concatenate.aggregator.start acts s)
    (hlife : Life false (acts.filter Act.isWork)) : acts.flatMap Act.output = [] := by
  rw [← flatMap_output_work]
  refine hlife.deliveries.output fun data hmem => ?_
  cases aggregator_waits h (List.mem_filter.mp hmem).1

/-- One that has ended has taken in bytes only, and has put out, in one piece, the bytes from each
place of its needs. -/
theorem concatenate_closed
    (h : (concatenate (W := W)).aggregator.Runs concatenate.aggregator.start acts s)
    (hlife : Life true (acts.filter Act.isWork))
    (hsmooth : ∀ data e, Act.transform data (.error e) ∉ acts) {k : Nat}
    (hk : ∀ input data, Act.enqueue input data ∈ acts → input < k) :
    (∀ chunk ∈ (List.range k).flatMap fun i => acts.filterMap (Act.received? i),
        chunk.bytes?.isSome = true) ∧
      acts.flatMap Act.output = [.ok (.bytes (Payload.joined
        ((List.range k).flatMap fun i => acts.filterMap (Act.received? i))))] := by
  generalize hwork : acts.filter Act.isWork = work at hlife
  cases hlife with
  | @closed front closing hfront hclosing =>
    have hworks : ∀ act ∈ front ++ closing, act ∈ acts := fun act hact =>
      (List.mem_filter.mp (hwork ▸ hact)).1
    obtain ⟨last, hattempt⟩ := hclosing
    cases hattempt with
    | waits =>
      obtain ⟨before, after, heq, rfl, -⟩ := filter_split hwork
      obtain ⟨s₁, -, hgot⟩ := concatenate_takes h hfront heq
      cases hgot
    | works data result =>
      obtain ⟨before, after, heq, rfl, -⟩ := filter_split hwork
      obtain ⟨s₁, hcollects, hgot⟩ := concatenate_takes h hfront heq
      obtain rfl := Option.some.inj hgot
      have htransform : Act.transform (.inputs (s₁.buffers.map (·.reverse))) result ∈ acts :=
        hworks _ (by simp)
      obtain ⟨hbytes, rfl⟩ := concatenate_joins h htransform hsmooth
      obtain rfl := concatenate_ends h (hworks (.lastChunk last) (by simp))
      have hwaits : before.flatMap Act.output = [] := by
        rw [← flatMap_output_work]
        refine hfront.output fun data hmem => ?_
        cases aggregator_waits h (hworks _ (List.mem_append_left _ hmem))
      have hreceived : ∀ i, acts.filterMap (Act.received? i) =
          before.filterMap (Act.received? i) := fun i => by
        rw [← filterMap_received_work, hwork, List.filterMap_append, filterMap_received_work]
        exact List.append_nil _
      have hbounds : ∀ input data, Act.enqueue input data ∈ before → input < k :=
        fun input data hmem => hk input data (heq ▸ List.mem_append_left _ hmem)
      rw [hcollects.flatten hbounds] at hbytes
      rw [← flatMap_output_work, hwork, List.flatMap_append, flatMap_output_work, hwaits,
        hcollects.flatten hbounds]
      simp only [hreceived]
      exact ⟨hbytes, rfl⟩

end Component

end FeatureGraph
