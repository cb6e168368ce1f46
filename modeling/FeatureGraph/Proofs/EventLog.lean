-- What the event log does with an event: it takes it in under a new id, or
-- its file refuses it and every entry stays. The log never changes its file,
-- and it writes to no other.
import FeatureGraph.EventLog.Basic
import FeatureGraph.Proofs.Dictionary
import FeatureGraph.Proofs.Files

namespace FeatureGraph.EventLog

variable {log log' : EventLog} {files : FileTree} {data : Json} {now : Int} {suffix : Nat}

/-- No entry has an id that is yet to be made. -/
def Fresh (log : EventLog) : Prop :=
  ∀ stamp suffix, log.lastStamp < stamp → log.entries.get? (Event.mintId stamp suffix) = none

/-- The channel of the log takes the events that are stored. -/
def Sends (log : EventLog) : Prop :=
  ∃ capacity sent isOpen, log.channel = .broadcast capacity sent isOpen

/-- The second log is the first after some time. -/
structure Later (log log' : EventLog) : Prop where
  file : log'.file = log.file
  lastStamp : log.lastStamp < log'.lastStamp
  sends : log.Sends → log'.Sends

/-- The second log has one entry more, under a new id. -/
def Takes (log log' : EventLog) (data : Json) : Prop :=
  ∃ stamp suffix, log.lastStamp < stamp ∧
    log'.entries = log.entries.insert (Event.mintId stamp suffix) data

theorem Takes.mono (h : log.Takes log' data) {id : String} (hid : (log.get? id).isSome) :
    (log'.get? id).isSome := by
  obtain ⟨stamp, suffix, -, hentries⟩ := h
  rw [EventLog.get?, hentries, Dictionary.get?_insert]
  split
  · rfl
  · exact hid

/-! ## Storing and sending -/

theorem append_of_write {place : Path} {more : Bytes} {files' : FileTree}
    (h : log.write files place more = .ok files') :
    log.barred = none ∧ files.append place more = .ok files' := by
  unfold write at h
  split at h
  · cases h
  · rename_i hfree
    exact ⟨hfree, h⟩

/-- Nothing is written but the file of the log. -/
theorem store_files : (log.store files data now suffix).2.1.file = log.file ∧
    ((log.store files data now suffix).2.2 = files ∨ ∃ place content, log.file = some place ∧
      (log.store files data now suffix).2.2 = files.put place (.file content)) := by
  obtain ⟨entries, lastStamp, file, channel, barred⟩ := log
  cases file with
  | none => exact ⟨rfl, Or.inl rfl⟩
  | some place =>
    unfold store
    dsimp only
    split
    · rename_i hwrite
      obtain ⟨content, hput⟩ := FileTree.append_eq_put (append_of_write hwrite).2
      exact ⟨rfl, Or.inr ⟨place, content, rfl, hput⟩⟩
    · exact ⟨rfl, Or.inl rfl⟩

/-- An event is stored under a new id, or the file refuses it. -/
theorem store_cases : (log.store files data now suffix).2.1.channel = log.channel ∧
    log.lastStamp < (log.store files data now suffix).2.1.lastStamp ∧
    (((∃ event, (log.store files data now suffix).1 = .ok event) ∧
        log.Takes (log.store files data now suffix).2.1 data) ∨
      ((∃ e, (log.store files data now suffix).1 = .error e) ∧ log.file ≠ none ∧
        (log.store files data now suffix).2.1.entries = log.entries)) := by
  obtain ⟨entries, lastStamp, file, channel, barred⟩ := log
  have hstamp : lastStamp < max now.toNat (lastStamp + 1) := by omega
  cases file with
  | none => exact ⟨rfl, hstamp, Or.inl ⟨⟨_, rfl⟩, _, suffix, hstamp, rfl⟩⟩
  | some place =>
    unfold store
    dsimp only
    split
    · exact ⟨rfl, hstamp, Or.inl ⟨⟨_, rfl⟩, _, suffix, hstamp, rfl⟩⟩
    · exact ⟨rfl, hstamp, Or.inr ⟨⟨_, rfl⟩, by simp, rfl⟩⟩

theorem publish_eq_ok {event : Event} (h : log.publish event = .ok log') :
    log'.entries = log.entries ∧ log'.lastStamp = log.lastStamp ∧ log'.file = log.file ∧
      (log.Sends → log'.Sends) := by
  unfold publish at h
  split at h
  · rename_i channel hchannel
    cases h
    refine ⟨rfl, rfl, rfl, ?_⟩
    rintro ⟨capacity, sent, isOpen, hbroadcast⟩
    rw [hbroadcast] at hchannel
    cases hchannel
    exact ⟨_, _, _, rfl⟩
  · cases h

theorem Sends.publish (h : log.Sends) (event : Event) : ∃ log', log.publish event = .ok log' := by
  obtain ⟨entries, lastStamp, file, channel, barred⟩ := log
  obtain ⟨capacity, sent, isOpen, rfl⟩ := h
  exact ⟨_, rfl⟩

theorem append_files (log : EventLog) (files : FileTree) (data : Json) (now : Int) (suffix : Nat) :
    (log.append files data now suffix).2.1.file = log.file ∧
    ((log.append files data now suffix).2.2 = files ∨ ∃ place content, log.file = some place ∧
      (log.append files data now suffix).2.2 = files.put place (.file content)) := by
  have hstore : (log.store files data now suffix).2.1.file = log.file ∧
      ((log.store files data now suffix).2.2 = files ∨ ∃ place content, log.file = some place ∧
        (log.store files data now suffix).2.2 = files.put place (.file content)) := store_files
  unfold append
  rcases heq : log.store files data now suffix with ⟨e | event, log', files'⟩
  all_goals rw [heq] at hstore
  · exact hstore
  · cases hpublish : log'.publish event with
    | error e => simpa [hpublish] using hstore
    | ok log'' => simpa [hpublish, (publish_eq_ok hpublish).2.2.1] using hstore

theorem append_frame : (log.append files data now suffix).2.1.file = log.file ∧
    ∀ q, log.file ≠ some q → (log.append files data now suffix).2.2.lookup q = files.lookup q := by
  obtain ⟨hfile, hfiles⟩ := log.append_files files data now suffix
  refine ⟨hfile, fun q hq => ?_⟩
  rcases hfiles with hsame | ⟨place, content, hplace, hput⟩
  · rw [hsame]
  · rw [hput]
    refine FileTree.lookup_put_ne ?_ _
    rintro rfl
    exact hq hplace

/-- An event is taken in, and then a log that sends its events gives an id, or it is refused. -/
theorem append_cases (log : EventLog) (files : FileTree) (data : Json) (now : Int) (suffix : Nat) :
    log.Later (log.append files data now suffix).2.1 ∧
      ((log.Takes (log.append files data now suffix).2.1 data ∧
          (log.Sends → ∃ id, (log.append files data now suffix).1 = .ok id)) ∨
        ((log.append files data now suffix).2.1.entries = log.entries ∧ log.file ≠ none ∧
          ∃ e, (log.append files data now suffix).1 = .error e)) := by
  have hfile : (log.append files data now suffix).2.1.file = log.file := append_frame.1
  obtain ⟨hchannel, hstamp, hcases⟩ :
      (log.store files data now suffix).2.1.channel = log.channel ∧ _ := store_cases
  revert hfile
  unfold append
  rcases heq : log.store files data now suffix with ⟨e | event, log', files'⟩
  all_goals
    rw [heq] at hchannel hstamp hcases
    have hsends : log.Sends ↔ log'.Sends := by rw [Sends, Sends, ← hchannel]
  · rintro hfile
    rcases hcases with ⟨⟨_, hok⟩, -⟩ | ⟨-, hplace, hentries⟩
    · cases hok
    · exact ⟨⟨hfile, hstamp, hsends.mp⟩, Or.inr ⟨hentries, hplace, e, rfl⟩⟩
  · rcases hcases with ⟨-, htakes⟩ | ⟨⟨_, herror⟩, -⟩
    · cases hpublish : log'.publish event with
      | error e =>
        simp only [hpublish]
        refine fun hfile => ⟨⟨hfile, hstamp, hsends.mp⟩, Or.inl ⟨htakes, fun hs => ?_⟩⟩
        obtain ⟨_, hok⟩ := (hsends.mp hs).publish event
        rw [hpublish] at hok
        cases hok
      | ok log'' =>
        obtain ⟨hentries, hlast, -, hsent⟩ := publish_eq_ok hpublish
        simp only [hpublish]
        refine fun hfile => ⟨⟨hfile, hlast ▸ hstamp, fun hs => hsent (hsends.mp hs)⟩,
          Or.inl ⟨?_, fun _ => ⟨_, rfl⟩⟩⟩
        obtain ⟨stamp, suffix, hlater, hinsert⟩ := htakes
        exact ⟨stamp, suffix, hlater, hentries.trans hinsert⟩
    · cases herror

end FeatureGraph.EventLog
