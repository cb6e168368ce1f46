-- The sessions of a writer. Its hooks may be called in any order and as often
-- as one likes. A session begins when the writer is opened and ends at the next
-- release, or when the writer is opened anew. It changes the store only in that
-- release, only if it was called for its end before, and then by just what it
-- was given.
import FeatureGraph.Proofs.Component.Storing
import Mathlib.Data.List.Induction

namespace FeatureGraph.Component

/-- A call of a writer. -/
inductive WriterCall where
  | acquire
  | transform (data : Payload)
  | lastChunk
  | release

namespace WriterCall

/-- What a call gives the writer to store. -/
def given : WriterCall → Bytes
  | .transform data => data.bytes?.getD []
  | _ => []

/-- Makes a call, in a state of the writer and a workspace. -/
def make (d : Destination) (x : Session × Workspace) :
    WriterCall → Except ComponentError Output × Session × Workspace
  | .acquire =>
    let (result, next) := (storing d).acquire x.1 x.2
    (result.map fun _ => [], next)
  | .transform data => (storing d).transform data x.1 x.2
  | .lastChunk => (storing d).lastChunk x.1 x.2
  | .release =>
    let (result, next) := (storing d).release x.1 x.2
    (result.map fun _ => [], next)

/-- The writer and the workspace after some calls, whatever they answered. -/
def after (d : Destination) (w : Workspace) (calls : List WriterCall) : Session × Workspace :=
  calls.foldl (fun x call => (call.make d x).2) ((storing d).start, w)

/-! ## Sessions -/

/-- A session is open after some calls, and these are its calls: the writer was opened before
them, and among them it was neither opened nor released. -/
def Open (calls session : List WriterCall) : Prop :=
  ∃ earlier, calls = earlier ++ .acquire :: session ∧ .acquire ∉ session ∧ .release ∉ session

variable {calls session session' : List WriterCall} {call : WriterCall}

theorem not_open_nil : ¬ Open [] session := by
  rintro ⟨earlier, heq, -⟩
  simp at heq

/-- Opening the writer begins a session. -/
theorem open_acquire : Open (calls ++ [.acquire]) session ↔ session = [] := by
  constructor
  · rintro ⟨earlier, heq, hacquire, -⟩
    rcases snoc_eq_append heq with ⟨-, -, hnil⟩ | ⟨front, hfront, -⟩
    · exact hnil
    · exact absurd (by simp [hfront]) hacquire
  · rintro rfl
    exact ⟨calls, rfl, List.not_mem_nil, List.not_mem_nil⟩

theorem not_open_release : ¬ Open (calls ++ [.release]) session := by
  rintro ⟨earlier, heq, -, hrelease⟩
  rcases snoc_eq_append heq with ⟨-, hlast, -⟩ | ⟨front, hfront, -⟩
  · cases hlast
  · exact hrelease (by simp [hfront])

/-- Every other call belongs to the session that is open. -/
theorem open_snoc (hacquire : .acquire ≠ call) (hrelease : .release ≠ call) :
    Open (calls ++ [call]) session ↔ ∃ before, Open calls before ∧ session = before ++ [call] := by
  constructor
  · rintro ⟨earlier, heq, hno, hnot⟩
    rcases snoc_eq_append heq with ⟨-, hlast, -⟩ | ⟨front, rfl, hcalls⟩
    · exact absurd hlast hacquire
    · simp only [List.mem_append, not_or] at hno hnot
      exact ⟨front, ⟨earlier, hcalls, hno.1, hnot.1⟩, rfl⟩
  · rintro ⟨before, ⟨earlier, rfl, hno, hnot⟩, rfl⟩
    exact ⟨earlier, by simp, by simp [hno, hacquire], by simp [hnot, hrelease]⟩

theorem not_open_snoc (hacquire : .acquire ≠ call) (hrelease : .release ≠ call)
    (h : ∀ session, ¬ Open calls session) : ¬ Open (calls ++ [call]) session := by
  rw [open_snoc hacquire hrelease]
  rintro ⟨before, hbefore, -⟩
  exact h before hbefore

theorem open_snoc_iff (hacquire : .acquire ≠ call) (hrelease : .release ≠ call)
    {this : List WriterCall} (h : ∀ session, Open calls session ↔ session = this) :
    Open (calls ++ [call]) session ↔ session = this ++ [call] := by
  simp only [open_snoc hacquire hrelease, h, exists_eq_left]

/-! ## What the writer knows of its session -/

/-- The store is in memory and takes all that it is asked to. -/
structure Ready (w : Workspace) : Prop where
  memory : ∃ table, w.store = .memory table
  faultless : w.faults = Faults.none

/-- The writer is as the calls say: open exactly if a session is, with the bytes that this session
was given, and then finished exactly if the session was called for its end. -/
inductive Follows (d : Destination) (calls : List WriterCall) : Session → Prop
  | closed {finished : Bool} : (∀ session, ¬ Open calls session) →
      Follows d calls ⟨none, finished⟩
  | opened {parts : List Bytes} {finished : Bool} {this : List WriterCall} :
      (∀ session, Open calls session ↔ session = this) →
      parts.reverse.flatten = this.flatMap given → (finished = true ↔ .lastChunk ∈ this) →
      Follows d calls ⟨some ⟨d.key, d.contentType, parts⟩, finished⟩

variable {d : Destination} {s : Session} {w : Workspace}

theorem acquire_of_ready (hw : Ready w) :
    make d (s, w) .acquire = (.ok [], Component.opened d, w) := by
  obtain ⟨⟨table, hstore⟩, hfaults⟩ := hw
  simp [make, storing, Workspace.openWriter, hfaults, hstore, Faults.none, Store.write,
    Component.opened, Except.map]

/-- What is like bytes is taken by an open writer, and all else is refused without effect. -/
theorem transform_of_ready (hw : Ready w) (data : Payload) :
    (∃ writer bs, s.writer = some writer ∧ data.bytes? = some bs ∧
        make d (s, w) (.transform data) =
          (.ok [], { s with writer := some (if bs = [] then writer else writer.add bs) }, w)) ∨
      ((s.writer = none ∨ data.bytes? = none) ∧
        ∃ e, make d (s, w) (.transform data) = (.error e, s, w)) := by
  cases hbytes : data.bytes? with
  | none =>
    exact Or.inr ⟨Or.inr rfl, .unexpectedPayload "encoded bytes", by simp [make, storing, hbytes]⟩
  | some bs =>
    cases hwriter : s.writer with
    | none =>
      exact Or.inr ⟨Or.inl rfl, .failed s!"writer for '{d.key}' is not open",
        by simp [make, storing, hbytes, hwriter]⟩
    | some writer =>
      refine Or.inl ⟨writer, bs, rfl, rfl, ?_⟩
      cases bs <;>
        simp [make, storing, hbytes, hwriter, Workspace.writeTo, hw.faultless, Faults.none]

/-- A release closes the writer, and commits what it holds if it is finished. -/
theorem release_of_ready {table : Dictionary Stored} (hstore : w.store = .memory table)
    (hfaults : w.faults = Faults.none) :
    (make d (s, w) .release).2.1.writer = none ∧
      (make d (s, w) .release).2.2.faults = Faults.none ∧
      (make d (s, w) .release).2.2.store = .memory (match s with
        | ⟨some writer, true⟩ => table.insert writer.key ⟨writer.contentType, writer.data⟩
        | _ => table) := by
  rcases s with ⟨_ | writer, _ | _⟩
  · exact ⟨rfl, hfaults, hstore⟩
  · exact ⟨rfl, hfaults, hstore⟩
  · exact ⟨rfl, hfaults, hstore⟩
  · obtain ⟨w', hw'⟩ : ∃ w', w' = { w with
        store := .memory (table.insert writer.key ⟨writer.contentType, writer.data⟩) } := ⟨_, rfl⟩
    have hcommit : w.commit writer = (.ok (), w') := by
      simp [Workspace.commit, hfaults, Faults.none, hstore, Store.commit, hw']
    obtain ⟨hkept, hfaults'⟩ := w'.announce_store d.announcement
    have hmake : (make d (⟨some writer, true⟩, w) .release).2 =
        (⟨none, true⟩, (w'.announce d.announcement).2) := by
      simp only [make, storing, if_true, hcommit]
      rcases w'.announce d.announcement with ⟨_ | _, w''⟩ <;> rfl
    rw [hmake, hkept, hfaults', hw']
    exact ⟨rfl, hfaults, rfl⟩

/-! ## Any calls in any order -/

/-- A call leaves the writer as the calls say, with this call the last of them. -/
theorem Follows.next (h : Follows d calls s) (hw : Ready w) (call : WriterCall) :
    Follows d (calls ++ [call]) (call.make d (s, w)).2.1 ∧ Ready (call.make d (s, w)).2.2 := by
  cases call with
  | acquire =>
    rw [acquire_of_ready hw]
    exact ⟨.opened (fun _ => open_acquire) rfl (by simp), hw⟩
  | transform data =>
    rcases transform_of_ready (d := d) (s := s) hw data with
      ⟨writer, bs, hwriter, hbytes, hmake⟩ | ⟨hnot, e, hmake⟩
    · rw [hmake]
      refine ⟨?_, hw⟩
      cases h with
      | closed => cases hwriter
      | @opened parts finished this hopen hparts hfinished =>
        cases hwriter
        have hadded : (if bs = [] then parts else bs :: parts).reverse.flatten =
            (this ++ [WriterCall.transform data]).flatMap given := by
          split <;> simp_all [given]
        have hfollows : Follows d (calls ++ [.transform data])
            ⟨some ⟨d.key, d.contentType, if bs = [] then parts else bs :: parts⟩, finished⟩ :=
          .opened (fun _ => open_snoc_iff (by simp) (by simp) hopen) hadded (by simpa using hfinished)
        split <;> simp_all [Writer.add]
    · rw [hmake]
      refine ⟨?_, hw⟩
      cases h with
      | closed hnone => exact .closed fun _ => not_open_snoc (by simp) (by simp) hnone
      | opened hopen hparts hfinished =>
        have hbytes : data.bytes? = none := hnot.resolve_left (by simp)
        exact .opened (fun _ => open_snoc_iff (by simp) (by simp) hopen)
          (by simp [hparts, given, hbytes]) (by simpa using hfinished)
  | lastChunk =>
    refine ⟨?_, hw⟩
    cases h with
    | closed hnone => exact .closed fun _ => not_open_snoc (by simp) (by simp) hnone
    | opened hopen hparts hfinished =>
      exact .opened (fun _ => open_snoc_iff (by simp) (by simp) hopen) (by simp [hparts, given])
        (by simp)
  | release =>
    obtain ⟨⟨table, hstore⟩, hfaults⟩ := hw
    obtain ⟨hclosed, hfaults', hstore'⟩ := release_of_ready (d := d) (s := s) hstore hfaults
    refine ⟨?_, ⟨_, hstore'⟩, hfaults'⟩
    generalize (WriterCall.make d (s, w) .release).2.1 = s' at hclosed ⊢
    obtain ⟨writer, finished⟩ := s'
    cases hclosed
    exact .closed fun _ => not_open_release

theorem follows_after (d : Destination) (hw : Ready w) (calls : List WriterCall) :
    Follows d calls (after d w calls).1 ∧ Ready (after d w calls).2 := by
  induction calls using List.reverseRecOn with
  | nil => exact ⟨.closed fun _ => not_open_nil, hw⟩
  | append_singleton calls call ih =>
    rw [after, List.foldl_append]
    exact ih.1.next ih.2 call

/-- A release commits all that an open session was given, if it was called for its end. -/
theorem Follows.commits (h : Follows d calls s) (hw : Ready w) (hopen : Open calls session)
    (hlast : .lastChunk ∈ session) :
    ∃ table table', w.store = .memory table ∧ (make d (s, w) .release).2.2.store = .memory table' ∧
      ∀ key, table'.get? key =
        if key = d.key then some ⟨d.contentType, session.flatMap given⟩ else table.get? key := by
  obtain ⟨⟨table, hstore⟩, hfaults⟩ := hw
  obtain ⟨-, -, hreleased⟩ := release_of_ready (d := d) (s := s) hstore hfaults
  cases h with
  | closed hnone => exact absurd hopen (hnone session)
  | opened hthis hparts hfinished =>
    cases (hthis session).mp hopen
    cases hfinished.mpr hlast
    refine ⟨table, _, hstore, hreleased, fun key => ?_⟩
    rw [Dictionary.get?_insert, Writer.data, hparts]

/-- Nothing else is committed. -/
theorem Follows.keeps (h : Follows d calls s) (hw : Ready w)
    (hcall : call = .release → ∀ session, Open calls session → .lastChunk ∉ session) :
    (call.make d (s, w)).2.2.store = w.store := by
  cases call with
  | acquire => rw [acquire_of_ready hw]
  | transform data =>
    rcases transform_of_ready (d := d) (s := s) hw data with
      ⟨writer, bs, -, -, hmake⟩ | ⟨-, e, hmake⟩ <;> rw [hmake]
  | lastChunk => rfl
  | release =>
    obtain ⟨⟨table, hstore⟩, hfaults⟩ := hw
    rw [(release_of_ready hstore hfaults).2.2, hstore]
    cases h with
    | closed => rfl
    | @opened parts finished this hthis hparts hfinished =>
      have hunfinished := hcall rfl this ((hthis this).mpr rfl)
      cases finished with
      | false => rfl
      | true => exact absurd (hfinished.mp rfl) hunfinished

/-- What is like bytes is taken while a session is open. -/
theorem Follows.takes (h : Follows d calls s) (hw : Ready w) (data : Payload) :
    ((make d (s, w) (.transform data)).1 = .ok [] ∧
        data.bytes?.isSome = true ∧ ∃ session, Open calls session) ∨
      ((∃ e, make d (s, w) (.transform data) = (.error e, s, w)) ∧
        (data.bytes? = none ∨ ∀ session, ¬ Open calls session)) := by
  rcases transform_of_ready (d := d) (s := s) hw data with
    ⟨writer, bs, hwriter, hbytes, hmake⟩ | ⟨hnot, e, hmake⟩
  · refine Or.inl ⟨by rw [hmake], by rw [hbytes]; rfl, ?_⟩
    cases h with
    | closed => cases hwriter
    | opened hthis => exact ⟨_, (hthis _).mpr rfl⟩
  · refine Or.inr ⟨⟨e, hmake⟩, ?_⟩
    cases h with
    | closed hnone => exact Or.inr hnone
    | opened => exact Or.inl (hnot.resolve_left (by simp))

/-- A writer over a store in memory, after any calls. A release of an open session that was called
for its end sets the writer's key to all that the session was given, and no other key. No other
call changes the store. A call of `transform` goes well exactly if a session is open and the
payload is like bytes; else it has no effect. -/
theorem writer_commits_finished_sessions (d : Destination) (hw : Ready w)
    (calls : List WriterCall) :
    (∀ session, Open calls session → .lastChunk ∈ session →
      ∃ table table', (after d w calls).2.store = .memory table ∧
        (make d (after d w calls) .release).2.2.store = .memory table' ∧
        ∀ key, table'.get? key =
          if key = d.key then some ⟨d.contentType, session.flatMap given⟩ else table.get? key) ∧
    (∀ call, (call = .release → ∀ session, Open calls session → .lastChunk ∉ session) →
      (make d (after d w calls) call).2.2.store = (after d w calls).2.store) ∧
    ∀ data, ((make d (after d w calls) (.transform data)).1 = .ok [] ∧
        data.bytes?.isSome = true ∧ ∃ session, Open calls session) ∨
      ((∃ e, make d (after d w calls) (.transform data) = (.error e, after d w calls)) ∧
        (data.bytes? = none ∨ ∀ session, ¬ Open calls session)) := by
  obtain ⟨hfollows, hready⟩ := follows_after d hw calls
  exact ⟨fun session hopen hlast => hfollows.commits hready hopen hlast,
    fun call hcall => hfollows.keeps hready hcall, fun data => hfollows.takes hready data⟩

def sessionDestination : Destination := ⟨"e:raw", "e", "raw", "text/plain"⟩

/-- Two sessions, of which the second is called for its end. What was given in the first, and what
is not like bytes, is not stored. -/
def twoSessions : List WriterCall :=
  [.lastChunk, .acquire, .transform (.literal "x"), .lastChunk, .acquire, .transform (.text "y"),
    .lastChunk, .transform (.int 7), .transform (.bytes [0x7A])]

theorem second_session_is_stored : ∃ table',
    (make sessionDestination (after sessionDestination
      (.new .empty .inMemory ⟨fun _ => 0, fun _ => 0, 0, 0⟩) twoSessions) .release).2.2.store =
        .memory table' ∧
      table'.get? "e:raw" = some ⟨"text/plain", [0x79, 0x7A]⟩ := by
  have hready : Ready (.new .empty .inMemory ⟨fun _ => 0, fun _ => 0, 0, 0⟩) := ⟨⟨_, rfl⟩, rfl⟩
  have hopen : Open twoSessions
      [.transform (.text "y"), .lastChunk, .transform (.int 7), .transform (.bytes [0x7A])] :=
    ⟨[.lastChunk, .acquire, .transform (.literal "x"), .lastChunk], rfl, by simp, by simp⟩
  obtain ⟨hrelease, -⟩ := writer_commits_finished_sessions sessionDestination hready twoSessions
  obtain ⟨table, table', -, hstore, hkeys⟩ := hrelease _ hopen (by simp)
  exact ⟨table', hstore, (hkeys "e:raw").trans ((if_pos rfl).trans (by decide +kernel))⟩

end WriterCall

end FeatureGraph.Component
