-- The conduct of encoders and writers. An encoder that was given chunks and
-- then ended has put out exactly what it makes of these chunks. A writer that
-- was opened holds exactly the bytes that it took, and knows whether it was
-- called for its end.
import FeatureGraph.Component.Storing
import FeatureGraph.Proofs.Run.Conduct
import FeatureGraph.Proofs.Run.Halting
import FeatureGraph.Proofs.Run.Slot
import FeatureGraph.Proofs.Run.Surroundings
import FeatureGraph.Proofs.Workspace

namespace FeatureGraph

variable {W : Type}

/-! ## Encoders -/

namespace Encoder

/-- All that an encoder puts out from a state on: for these chunks, and then at the end. -/
def runsOf (e : Encoder) : List Payload → e.State → Except CodecError (List Bytes)
  | [], s => (e.finish s).1
  | chunk :: rest, s =>
    match e.encode chunk s with
    | (.ok runs, s) => (e.runsOf rest s).map (runs ++ ·)
    | (.error cause, _) => .error cause

/-- The bytes of a feature of these chunks: all that its encoder puts out, joined. -/
def bytesOf (e : Encoder) (chunks : List Payload) : Except CodecError Bytes :=
  (e.runsOf chunks e.start).map List.flatten

theorem runsOf_cons {e : Encoder} {chunk : Payload} {rest : List Payload} {s s' : e.State}
    {runs : List Bytes} (h : e.encode chunk s = (.ok runs, s')) :
    e.runsOf (chunk :: rest) s = (e.runsOf rest s').map (runs ++ ·) := by
  rw [runsOf, h]

end Encoder

theorem Output.ofBytes_append (runs more : List Bytes) :
    Output.ofBytes (runs ++ more) = Output.ofBytes runs ++ Output.ofBytes more := List.map_append

namespace Component

/-- What an encoder has put out is the beginning of what it makes of all its chunks. -/
theorem encoding_runs {e : Encoder} {s s' : (encoding (W := W) e).State} {acts : List Act}
    (h : (encoding (W := W) e).Runs s acts s') (hsmooth : ∀ act ∈ acts, act.failed = false)
    (hopen : ∀ result, Act.lastChunk result ∉ acts) :
    ∃ runs, acts.flatMap Act.output = Output.ofBytes runs ∧
      ∀ chunks, e.runsOf (acts.filterMap Act.worked? ++ chunks) s =
        (e.runsOf chunks s').map (runs ++ ·) := by
  induction h with
  | nil =>
    refine ⟨[], rfl, fun chunks => ?_⟩
    cases h : e.runsOf chunks s <;> simp [h, Except.map]
  | @snoc acts act s₁ s₂ _ hdoes ih =>
    obtain ⟨runs, hout, hruns⟩ := ih (fun a ha => hsmooth a (List.mem_append_left _ ha))
      fun result ha => hopen result (List.mem_append_left _ ha)
    have hact := hsmooth act (by simp)
    cases hdoes with
    | enqueue | dequeue | emit => exact ⟨runs, by simp [hout, Act.output], by simpa [Act.worked?]⟩
    | lastChunk _ w => exact absurd (by simp) (hopen ((encoding e).lastChunk s₁ w).1)
    | transform data _ w =>
      rcases hencode : e.encode data s₁ with ⟨cause | more, s₂⟩
      · simp [encoding, hencode, Act.failed] at hact
      · refine ⟨runs ++ more, ?_, fun chunks => ?_⟩
        · simp [encoding, hencode, hout, Act.output, Output.ofBytes_append]
        · have hnext := hruns (data :: chunks)
          rw [Encoder.runsOf_cons hencode] at hnext
          simp only [encoding, hencode, List.filterMap_append, Act.worked?, List.filterMap_cons,
            List.filterMap_nil, List.append_assoc, List.singleton_append]
          rw [hnext]
          cases e.runsOf chunks s₂ <;> simp [Except.map]

/-- An encoder that has ended has put out all that it makes of its chunks. -/
theorem encoding_ended {e : Encoder} {s s' : (encoding (W := W) e).State}
    {acts before after : List Act} {out : Output} (h : (encoding (W := W) e).Runs s acts s')
    (heq : acts = before ++ .lastChunk (.ok out) :: after)
    (hsmooth : ∀ act ∈ before, act.failed = false)
    (hopen : ∀ result, Act.lastChunk result ∉ before)
    (hafter : ∀ act ∈ after, act.isWork = false) :
    ∃ runs, acts.flatMap Act.output = Output.ofBytes runs ∧
      e.runsOf (acts.filterMap Act.worked?) s = .ok runs := by
  obtain ⟨s₁, s₂, hbefore, hdoes⟩ := h.at heq
  obtain ⟨runs, hout, hruns⟩ := encoding_runs hbefore hsmooth hopen
  have hsilent : after.flatMap Act.output = [] ∧ after.filterMap Act.worked? = [] := by
    constructor
    · refine List.flatMap_eq_nil_iff.mpr fun act hact => ?_
      have := hafter act hact
      cases act <;> simp_all [Act.isWork, Act.output]
    · refine List.filterMap_eq_nil_iff.mpr fun act hact => ?_
      have := hafter act hact
      cases act <;> simp_all [Act.isWork, Act.worked?]
  have hend : ∃ last, out = Output.ofBytes last ∧ (e.finish s₁).1 = .ok last := by
    generalize hact : Act.lastChunk (.ok out) = act at hdoes
    cases hdoes with
    | lastChunk _ w =>
      rcases hfinish : e.finish s₁ with ⟨cause | last, s₃⟩
      · simp [encoding, hfinish] at hact
      · simp only [encoding, hfinish, Act.lastChunk.injEq, Except.ok.injEq] at hact
        exact ⟨last, hact, rfl⟩
    | enqueue | dequeue | transform | emit => cases hact
  obtain ⟨last, rfl, hlast⟩ := hend
  refine ⟨runs ++ last, ?_, ?_⟩
  · simp [heq, hout, hsilent.1, Act.output, Output.ofBytes_append]
  · have hnext := hruns []
    rw [List.append_nil, show e.runsOf [] s₁ = .ok last from hlast] at hnext
    rw [heq, List.filterMap_append, List.filterMap_cons_none rfl, hsilent.2, List.append_nil]
    exact hnext

end Component

/-! ## Writers -/

/-- The bytes that a writer took. -/
def Act.written : Act → Bytes
  | .transform data (.ok _) => data.bytes?.getD []
  | _ => []

namespace Component

variable {d : Destination}

/-- A writer that was opened holds the bytes that it took, and counts as finished once it was
called for its end. -/
theorem storing_runs {s s' : (storing d).State} {acts : List Act} {writer : Writer}
    (h : (storing d).Runs s acts s') (hwriter : s.writer = some writer) :
    ∃ writer', s'.writer = some writer' ∧ writer'.key = writer.key ∧
      writer'.contentType = writer.contentType ∧
      writer'.data = writer.data ++ acts.flatMap Act.written ∧
      (s'.finished = true ↔ s.finished = true ∨ ∃ result, Act.lastChunk result ∈ acts) := by
  induction h with
  | nil => exact ⟨writer, hwriter, rfl, rfl, by simp, by simp⟩
  | @snoc acts act s₁ s₂ _ hdoes ih =>
    obtain ⟨writer', hwriter', hkey, htype, hdata, hfinished⟩ := ih
    cases hdoes with
    | enqueue | dequeue | emit =>
      exact ⟨writer', hwriter', hkey, htype, by simp [hdata, Act.written],
        by simpa [storing] using hfinished⟩
    | lastChunk _ w =>
      exact ⟨writer', hwriter', hkey, htype, by simp [hdata, Act.written], by simp [storing]⟩
    | transform data _ w =>
      simp only [storing]
      cases hbytes : data.bytes? with
      | none =>
        exact ⟨writer', hwriter', hkey, htype, by simp [hdata, Act.written],
          by simpa using hfinished⟩
      | some bs =>
        simp only [hwriter']
        cases hwrite : w.writeTo writer' bs with
        | error e =>
          exact ⟨writer', hwriter', hkey, htype, by simp [hdata, Act.written],
            by simpa using hfinished⟩
        | ok writer'' =>
          have hadd : writer''.key = writer'.key ∧ writer''.contentType = writer'.contentType ∧
              writer''.data = writer'.data ++ bs := by
            unfold Workspace.writeTo at hwrite
            split at hwrite
            · rename_i hempty
              cases hwrite
              simp [List.isEmpty_iff.mp hempty]
            · split at hwrite
              · cases hwrite
              · cases hwrite
                exact ⟨rfl, rfl, Writer.data_add _ _⟩
          exact ⟨writer'', rfl, hadd.1.trans hkey, hadd.2.1.trans htype,
            by simp [hadd.2.2, hdata, Act.written, hbytes], by simpa using hfinished⟩

def opened (d : Destination) : Session := ⟨some ⟨d.key, d.contentType, []⟩, false⟩

/-- Opening a writer changes nothing, and the writer holds nothing yet. -/
theorem storing_acquire (s : Session) (w : Workspace) :
    ((storing d).acquire s w).2.2 = w ∧
      (((storing d).acquire s w).1 = .ok () → ((storing d).acquire s w).2.1 = opened d) := by
  have hopen : ∀ writer, w.openWriter d.key d.contentType = .ok writer →
      writer = ⟨d.key, d.contentType, []⟩ := by
    intro writer h
    unfold Workspace.openWriter at h
    split at h
    · cases h
    · unfold Store.write at h
      split at h
      · cases h
        rfl
      · rename_i root room _
        cases hpath : Store.filePath root d.key with
        | error e => simp [hpath, Except.map] at h
        | ok path =>
          simp only [hpath, Except.map, Except.ok.injEq] at h
          exact h.symm
  simp only [storing]
  cases h : w.openWriter d.key d.contentType with
  | error e => exact ⟨rfl, fun h => by cases h⟩
  | ok writer => exact ⟨rfl, fun _ => by rw [hopen writer h, opened]⟩

/-! ## What they do to what is stored -/

theorem encoding_detached {P : W → W → Prop} (hrefl : ∀ w, P w w) (e : Encoder) :
    (encoding (W := W) e).Detached P where
  enqueue _ _ _ _ w := hrefl w
  dequeue _ _ _ w := hrefl w
  transform data s w := by
    simp only [encoding]
    split
    · exact hrefl w
    · exact hrefl w
  lastChunk s w := by
    simp only [encoding]
    split
    · exact hrefl w
    · exact hrefl w
  acquire _ w := hrefl w
  release _ w := hrefl w

/-- Until it is released a writer leaves its surroundings alone, too. -/
theorem storing_gentle {P : Workspace → Workspace → Prop} (hrefl : ∀ w, P w w) (d : Destination) :
    (storing d).Gentle P where
  enqueue _ _ _ _ w := hrefl w
  dequeue _ _ _ w := hrefl w
  transform data s w := by
    simp only [storing]
    split
    · exact hrefl w
    · split
      · exact hrefl w
      · split
        · exact hrefl w
        · exact hrefl w
  lastChunk _ w := hrefl w
  acquire s w := by
    rw [(storing_acquire s w).1]
    exact hrefl w

section Release

variable {s : Session} {writer : Writer} {w : Workspace}

/-- A writer whose input has not all come stores nothing. -/
theorem storing_discard (hfinished : s.finished = false) :
    ((storing d).release s w).2.2 = w := by
  simp only [storing, hfinished]
  split <;> rfl

/-- Any other is refused by the store, or it commits and tells the event log. -/
theorem storing_commit (hwriter : s.writer = some writer) (hfinished : s.finished = true) :
    (∃ e, (storing d).release s w = (.error (.storage e), { s with writer := none }, w)) ∨
      ∃ w', w.commit writer = (.ok (), w') ∧
        ((storing d).release s w).2.2 = (w'.announce d.announcement).2 ∧
        (∀ e, ((storing d).release s w).1 ≠ .error (.storage e)) ∧
        (((storing d).release s w).1 = .ok () ↔ (w'.announce d.announcement).1 = .ok ()) := by
  simp only [storing, hwriter, hfinished, if_true]
  rcases w.commit_cases writer with ⟨e, hcommit⟩ | ⟨w', hcommit, -⟩
  · rw [hcommit]
    exact Or.inl ⟨e, rfl⟩
  · rw [hcommit]
    refine Or.inr ⟨w', rfl, ?_⟩
    rcases hannounce : w'.announce d.announcement with ⟨e | _, w''⟩
    · simp [hannounce]
    · simp [hannounce]

theorem storing_release {key : String} (hwriter : s.writer = some writer)
    (hlog : ¬ w.KeepsLogAt key) :
    ((storing d).release s w).2.2.layout = w.layout ∧
      ((s.finished = true ∧ writer.key = key ∧
          (∀ e, ((storing d).release s w).1 ≠ .error (.storage e)) ∧
          ((storing d).release s w).2.2.held? key =
            some (w.kept writer.contentType writer.data)) ∨
        ((s.finished = true → writer.key = key →
            ∃ e, ((storing d).release s w).1 = .error (.storage e)) ∧
          ((storing d).release s w).2.2.held? key = w.held? key)) := by
  cases hfinished : s.finished with
  | false =>
    rw [storing_discard hfinished]
    exact ⟨rfl, Or.inr ⟨fun h => absurd h (by simp), rfl⟩⟩
  | true =>
    rcases storing_commit (d := d) (w := w) hwriter hfinished with
      ⟨e, hrefused⟩ | ⟨w', hcommit, hworld, hresult, -⟩
    · rw [hrefused]
      exact ⟨rfl, Or.inr ⟨fun _ _ => ⟨e, rfl⟩, rfl⟩⟩
    · rcases w.commit_cases writer with ⟨e, herror⟩ | ⟨w'', hcommit', hlayout, -, hself, hother⟩
      · rw [hcommit] at herror
        cases herror
      rw [hcommit] at hcommit'
      cases hcommit'
      have hlog' : ¬ w'.KeepsLogAt key := fun h => hlog ((Workspace.keepsLogAt_congr hlayout).mp h)
      rw [hworld, Workspace.announce_layout, Workspace.announce_held hlog']
      refine ⟨hlayout, ?_⟩
      by_cases hkey : writer.key = key
      · exact Or.inl ⟨rfl, hkey, hresult, hkey ▸ hself⟩
      · exact Or.inr ⟨fun _ h => absurd h hkey, hother key (Ne.symm hkey)⟩

end Release

theorem storing_not_detached (d : Destination) : ¬ (storing d).Detached Workspace.SameStored := by
  intro h
  have hsame := (h.release ⟨some ⟨d.key, d.contentType, []⟩, true⟩
    (.new .empty .inMemory ⟨fun _ => 0, fun _ => 0, 0, 0⟩)).held d.key
  simp [storing, Workspace.commit, Workspace.new, Faults.none, Store.commit, Store.inMemory,
    Workspace.announce, Workspace.held?] at hsame

end Component

end FeatureGraph
