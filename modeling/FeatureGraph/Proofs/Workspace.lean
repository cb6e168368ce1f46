-- What is stored. Committing a writer puts its bytes under its key and leaves
-- all other keys as they were, or it is refused and changes nothing. What the
-- event log is told changes no value, but for the log's own file if that
-- stands among the files of the store.
import FeatureGraph.Component.Error
import FeatureGraph.Proofs.EventLog
import FeatureGraph.Workspace

namespace FeatureGraph

/-- The folder of a store that has one. -/
def Store.root? : Store → Option Path
  | .memory _ => none
  | .folder root _ => some root

namespace Workspace

variable {w w' w'' : Workspace} {key : String}

/-- The value under a key: its bytes, and their media type where the store keeps it. -/
def held? (w : Workspace) (key : String) : Option (Bytes × Option String) :=
  match w.store with
  | .memory table => (table.get? key).map fun stored => (stored.data, some stored.contentType)
  | .folder root _ =>
    match w.files.lookup (root ++ [key]) with
    | some (.file content) => some (content, none)
    | _ => none

def logFile? (w : Workspace) : Option Path := w.log.bind (·.file)

def logged? (w : Workspace) : Option (Dictionary Json) := w.log.map (·.entries)

def event? (w : Workspace) (id : String) : Option Json := w.log.bind (·.get? id)

theorem event?_eq (w : Workspace) (id : String) : w.event? id = w.logged?.bind (·.get? id) := by
  rw [event?, logged?]
  cases w.log <;> rfl

/-- Where the store and the event log are kept. -/
def layout (w : Workspace) : Option Path × Option Path := (w.store.root?, w.logFile?)

/-- The event log is kept within the folder of the store, in the file of this key. -/
def KeepsLogAt (w : Workspace) (key : String) : Prop :=
  ∃ root, w.layout = (some root, some (root ++ [key]))

/-- A value as the store of a workspace keeps it. -/
def kept (w : Workspace) (contentType : String) (data : Bytes) : Bytes × Option String :=
  (data, if w.layout.1.isSome then none else some contentType)

/-- Under every key there is what there was. -/
structure SameStored (w w' : Workspace) : Prop where
  layout : w'.layout = w.layout
  held : ∀ key, w'.held? key = w.held? key

theorem SameStored.refl (w : Workspace) : SameStored w w := ⟨rfl, fun _ => rfl⟩

theorem SameStored.trans (h : SameStored w w') (h' : SameStored w' w'') : SameStored w w'' :=
  ⟨h'.layout.trans h.layout, fun key => (h'.held key).trans (h.held key)⟩

/-- And the event log is the same. -/
structure Untouched (w w' : Workspace) : Prop extends SameStored w w' where
  log : w'.log = w.log

theorem Untouched.refl (w : Workspace) : Untouched w w := ⟨.refl w, rfl⟩

theorem Untouched.trans (h : Untouched w w') (h' : Untouched w' w'') : Untouched w w'' :=
  ⟨h.toSameStored.trans h'.toSameStored, h'.log.trans h.log⟩

theorem untouched_newId (w : Workspace) (source : IdSource) (inputs : Inputs) :
    Untouched w (w.newId source inputs).2 := by
  cases source with
  | input key => exact .refl w
  | random => exact ⟨⟨rfl, fun _ => rfl⟩, rfl⟩

theorem keepsLogAt_congr (h : w'.layout = w.layout) : w'.KeepsLogAt key ↔ w.KeepsLogAt key := by
  unfold KeepsLogAt
  rw [h]

/-! ## Committing -/

/-- A commit is refused, or it stores the bytes of the writer and nothing else. -/
theorem commit_cases (w : Workspace) (writer : Writer) :
    (∃ e, w.commit writer = (.error e, w)) ∨
      ∃ w', w.commit writer = (.ok (), w') ∧ w'.layout = w.layout ∧ w'.log = w.log ∧
        w'.held? writer.key = some (w.kept writer.contentType writer.data) ∧
        ∀ key, key ≠ writer.key → w'.held? key = w.held? key := by
  unfold commit
  cases w.faults.committing writer.key with
  | some e => exact Or.inl ⟨_, rfl⟩
  | none =>
    obtain ⟨files, store, faults, log, streams, captures, supply, trace⟩ := w
    cases store with
    | memory table =>
      refine Or.inr ⟨_, rfl, rfl, rfl, ?_, fun key hkey => ?_⟩
      · simp [held?, kept, layout, Store.root?]
      · simp [held?, Dictionary.get?_insert, hkey]
    | folder root room =>
      simp only [Store.commit]
      cases Store.filePath root writer.key with
      | error e => exact Or.inl ⟨_, rfl⟩
      | ok path =>
        simp only
        cases hfiles : files.replaceFile root room writer.key writer.data with
        | error e => exact Or.inl ⟨_, rfl⟩
        | ok files' =>
          obtain ⟨hself, hother⟩ := FileTree.replaceFile_eq_ok hfiles
          refine Or.inr ⟨_, rfl, rfl, rfl, ?_, fun key hkey => ?_⟩
          · simp [held?, kept, layout, Store.root?, hself]
          · have hplace : root ++ [key] ≠ root ++ [writer.key] := by simpa using hkey
            simp only [held?, hother _ hplace]

theorem commit_layout {writer : Writer} (h : w.commit writer = (.ok (), w')) :
    w'.layout = w.layout ∧ w'.log = w.log := by
  rcases w.commit_cases writer with ⟨e, herror⟩ | ⟨w'', hcommit, hlayout, hlog, -⟩
  · rw [h] at herror
    cases herror
  · rw [h] at hcommit
    cases hcommit
    exact ⟨hlayout, hlog⟩

/-! ## Announcing -/

theorem announce_store (w : Workspace) (data : Json) :
    (w.announce data).2.store = w.store ∧ (w.announce data).2.faults = w.faults := by
  obtain ⟨files, store, faults, log, streams, captures, supply, trace⟩ := w
  cases log <;> exact ⟨rfl, rfl⟩

theorem announce_layout (w : Workspace) (data : Json) : (w.announce data).2.layout = w.layout := by
  obtain ⟨files, store, faults, log, streams, captures, supply, trace⟩ := w
  cases log with
  | none => rfl
  | some log =>
    simp only [announce, layout, logFile?, now, random, Option.bind_some]
    rw [EventLog.append_frame.1]

/-- What the log is told changes no value. -/
theorem announce_held (h : ¬ w.KeepsLogAt key) (data : Json) :
    (w.announce data).2.held? key = w.held? key := by
  obtain ⟨files, store, faults, log, streams, captures, supply, trace⟩ := w
  cases log with
  | none => rfl
  | some log =>
    cases store with
    | memory table => rfl
    | folder root room =>
      have hfile : log.file ≠ some (root ++ [key]) := fun heq =>
        h ⟨root, by simp [layout, Store.root?, logFile?, heq]⟩
      simp only [announce, held?, now, random]
      rw [EventLog.append_frame.2 _ hfile]

theorem announce_log (w : Workspace) (data : Json) :
    (w.log = none ∧ (w.announce data).2.log = none) ∨
      ∃ log log', w.log = some log ∧ (w.announce data).2.log = some log' ∧ log.Later log' ∧
        ((log.Takes log' data ∧ (log.Sends → (w.announce data).1 = .ok ())) ∨
          (log'.entries = log.entries ∧ log.file ≠ none ∧ (w.announce data).1 ≠ .ok ())) := by
  obtain ⟨files, store, faults, log, streams, captures, supply, trace⟩ := w
  cases log with
  | none => exact Or.inl ⟨rfl, rfl⟩
  | some log =>
    refine Or.inr ⟨log, _, rfl, rfl, ?_⟩
    obtain ⟨hlater, hcases⟩ :=
      log.append_cases files data (supply.clock supply.read) (supply.random supply.drawn)
    refine ⟨hlater, hcases.imp (fun ⟨htakes, hsends⟩ => ⟨htakes, fun hs => ?_⟩)
      fun ⟨hentries, hfile, e, he⟩ => ⟨hentries, hfile, ?_⟩⟩
    · obtain ⟨id, hid⟩ := hsends hs
      simp only [announce, now, random, hid, Except.map]
    · simp [announce, now, random, he, Except.map]

/-- An event leaves every event where it is. -/
theorem announce_grows (w : Workspace) (data : Json) :
    (w.announce data).2.log.isSome = w.log.isSome ∧
      ∀ id, (w.event? id).isSome → ((w.announce data).2.event? id).isSome := by
  rcases w.announce_log data with ⟨hlog, hlog'⟩ | ⟨log, log', hlog, hlog', -, hcases⟩
  · simp [event?, hlog, hlog']
  · refine ⟨by rw [hlog, hlog', Option.isSome_some, Option.isSome_some], fun id hid => ?_⟩
    simp only [event?, hlog, hlog', Option.bind_some] at hid ⊢
    rcases hcases with ⟨htakes, -⟩ | ⟨hentries, -, -⟩
    · exact htakes.mono hid
    · rwa [EventLog.get?, hentries]

/-- A log in good order: its ids grow, and it is kept in memory or sends what it stores. -/
def Steady (w : Workspace) : Prop :=
  ∀ log, w.log = some log → log.Fresh ∧ (log.file = none ∨ log.Sends)

/-- The log takes in an event: there is one, and no file of it refuses the event. -/
def Hears (w : Workspace) (result : Except ComponentError Unit) : Prop :=
  w.log.isSome = true ∧ (w.logFile? = none ∨ result = .ok ())

/-- A log in good order has a new event then, and else the same events. -/
theorem announce_heard (hsteady : w.Steady) {data : Json} {result : Except ComponentError Unit}
    (hresult : result = .ok () ↔ (w.announce data).1 = .ok ()) :
    (w.Hears result ∧
        ∃ id, w.event? id = none ∧ ((w.announce data).2.event? id).isSome) ∨
      (¬ w.Hears result ∧ (w.announce data).2.logged? = w.logged? ∧
        (w.announce data).2.Steady) := by
  rcases w.announce_log data with ⟨hlog, hlog'⟩ | ⟨log, log', hlog, hlog', hlater, hcases⟩
  · refine Or.inr ⟨fun h => ?_, by rw [logged?, logged?, hlog, hlog'], fun log h => ?_⟩
    · obtain ⟨hsome, -⟩ := h
      rw [hlog] at hsome
      cases hsome
    · rw [hlog'] at h
      cases h
  · obtain ⟨hfresh, hkind⟩ := hsteady log hlog
    rcases hcases with ⟨⟨stamp, suffix, hstamp, hentries⟩, hok⟩ | ⟨hentries, hfile, hrefused⟩
    · refine Or.inl ⟨⟨by rw [hlog]; rfl, ?_⟩, Event.mintId stamp suffix, ?_, ?_⟩
      · rcases hkind with hfile | hsends
        · exact Or.inl (by rw [logFile?, hlog, Option.bind_some, hfile])
        · exact Or.inr (hresult.mpr (hok hsends))
      · rw [event?, hlog]
        exact hfresh stamp suffix hstamp
      · simp [event?, hlog', EventLog.get?, hentries]
    · refine Or.inr ⟨?_, by simp [logged?, hlog, hlog', hentries], fun log'' h => ?_⟩
      · rintro ⟨-, hnone | hok⟩
        · rw [logFile?, hlog, Option.bind_some] at hnone
          exact hfile hnone
        · exact hrefused (hresult.mp hok)
      · rw [hlog'] at h
        cases h
        refine ⟨fun stamp suffix hstamp => ?_, ?_⟩
        · rw [hentries]
          exact hfresh stamp suffix (Nat.lt_trans hlater.lastStamp hstamp)
        · rw [hlater.file]
          exact hkind.imp_right hlater.sends

end Workspace

end FeatureGraph
