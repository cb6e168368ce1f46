-- What a log gains. Each event that a log stores has an id of its own, which
-- comes after that of the event before it; all else in the log stays. This
-- is so for every log that there can be: what its file held when it was
-- opened has no stamp that the log is yet to give.
import FeatureGraph.Proofs.EventLog.History

namespace FeatureGraph

/-! ## Places of files -/

namespace FileTree

variable {t t' : FileTree} {p q : Path}

/-- There is a file at the place, or one can be made there. -/
def Takes (t : FileTree) (p : Path) : Prop :=
  (∃ content, t.lookup p = some (.file content)) ∨
    t.lookup p = none ∧ t.lookup p.dropLast = some .folder

theorem takes_iff (more : Bytes) : t.Takes p ↔ ∃ t', t.append p more = .ok t' := by
  unfold Takes FileTree.append
  split
  · rename_i hplace
    simp [hplace]
  · rename_i content hplace
    simp [hplace]
  · rename_i hplace
    split <;> simp_all

/-- A file that is put somewhere, but not in the place of a folder, changes nothing of it. -/
theorem Takes.congr (h : t.Takes p) (hfolder : t.lookup q ≠ some .folder)
    (hself : ∃ content, t'.lookup q = some (.file content))
    (hother : ∀ r, r ≠ q → t'.lookup r = t.lookup r) : t'.Takes p := by
  by_cases hp : p = q
  · exact Or.inl (hp ▸ hself)
  · unfold Takes
    rw [hother p hp]
    refine h.imp_right fun ⟨hnone, hparent⟩ => ⟨hnone, ?_⟩
    rw [hother _ fun heq => hfolder (heq ▸ hparent)]
    exact hparent

end FileTree

namespace EventLog

variable {log log' log₁ : EventLog} {files files' : FileTree} {events old : List Event} {e : Event}

/-! ## Stamps -/

/-- No event of the log has a later stamp than the last one that the log knows of. -/
def Dated (log : EventLog) : Prop :=
  ∀ id, (log.entries.get? id).isSome → Event.stampOf id ≤ log.lastStamp

theorem dated_inMemory (channel : Channel) : (inMemory channel).Dated := by
  intro id hid
  cases hid

theorem Dated.insert (h : log.Dated) {stamp : Nat} (hle : log.lastStamp ≤ stamp)
    (he : Event.stampOf e.id ≤ stamp) (hentries : log'.entries = log.entries.insert e.id e.data)
    (hstamp : log'.lastStamp = stamp) : log'.Dated := by
  intro id hid
  rw [hentries, Dictionary.get?_insert] at hid
  rw [hstamp]
  split at hid
  · rename_i heq
    rw [heq]
    exact he
  · exact Nat.le_trans (h id hid) hle

theorem Dated.loadLine {line : Bytes} (h : log.Dated) (hline : log.loadLine line = .ok log') :
    log'.Dated := by
  unfold EventLog.loadLine at hline
  split at hline
  · cases hline
  · split at hline
    · cases hline
      exact h
    · split at hline
      · cases hline
      · cases hline
        exact h.insert (Nat.le_max_left ..) (Nat.le_max_right ..) rfl rfl

theorem Dated.loadLines {ls : List Bytes} (h : log.Dated) (hload : log.loadLines ls = .ok log') :
    log'.Dated := by
  induction ls generalizing log with
  | nil =>
    cases hload
    exact h
  | cons line rest ih =>
    rw [EventLog.loadLines] at hload
    split at hload
    · rename_i log₁ hline
      exact ih (h.loadLine hline) hload
    · cases hload

/-- Whatever the file holds. -/
theorem dated_openFolder {path : String} {channel : Channel}
    (hopen : openFolder files path channel = (.ok log, files')) : log.Dated := by
  unfold openFolder at hopen
  split at hopen
  · cases hopen
  · dsimp only at hopen
    split at hopen
    · cases hopen
      exact dated_inMemory channel
    · cases hopen
      exact dated_inMemory channel
    · cases hopen
    · simp only [Prod.mk.injEq] at hopen
      refine Dated.loadLines ?_ hopen.1
      exact dated_inMemory channel

theorem Dated.fresh (h : log.Dated) {stamp suffix : Nat} (hlater : log.lastStamp < stamp)
    (hfits : stamp < 2 ^ 64) : log.entries.get? (Event.mintId stamp suffix) = none := by
  by_contra hne
  have hle := h _ (Option.isSome_iff_ne_none.mpr hne)
  rw [Event.stampOf_mintId hfits] at hle
  omega

/-! ## Storing -/

/-- The log stores an event, whatever it is. -/
def CanStore (log : EventLog) (files : FileTree) : Prop :=
  ∀ data now suffix, ∃ e, (log.store files data now suffix).1 = .ok e

/-- It does if it is kept in memory only, or if its file can be opened and written. -/
theorem canStore_iff : log.CanStore files ↔
    ∀ place, log.file = some place → log.barred = none ∧ files.Takes place := by
  constructor
  · intro h place hplace
    obtain ⟨e, he⟩ := h .null 0 0
    rcases store_eq log files .null 0 0 with ⟨e, files', hstore, -, -, hwrite⟩ |
      ⟨-, -, error, hstore, -⟩
    · obtain ⟨hfree, hadded⟩ := append_of_write (hwrite place hplace)
      exact ⟨hfree, (FileTree.takes_iff _).mpr ⟨files', hadded⟩⟩
    · rw [hstore] at he
      cases he
  · intro h data now suffix
    rcases store_eq log files data now suffix with ⟨e, files', hstore, -⟩ |
      ⟨place, more, error, -, hplace, hwrite⟩
    · exact ⟨e, by rw [hstore]⟩
    · obtain ⟨hfree, htakes⟩ := h place hplace
      obtain ⟨files', hadded⟩ := (FileTree.takes_iff more).mp htakes
      unfold EventLog.write at hwrite
      rw [hfree, hadded] at hwrite
      cases hwrite

/-- The second log has stored one event more, under a new stamp. -/
structure Stores (log : EventLog) (e : Event) (log' : EventLog) : Prop where
  file : log'.file = log.file
  barred : log'.barred = log.barred
  later : log.lastStamp < log'.lastStamp
  minted : ∃ suffix, e.id = Event.mintId log'.lastStamp suffix
  entries : log'.entries = log.entries.insert e.id e.data

/-- What is appended to a log that can store is stored, also if it cannot be sent, and the log can
store the next event too. -/
theorem CanStore.append (h : log.CanStore files) (data : Json) (now : Int) (suffix : Nat) :
    ∃ e, e.data = data ∧ log.Stores e (log.append files data now suffix).2.1 ∧
      (log.append files data now suffix).2.1.CanStore (log.append files data now suffix).2.2 := by
  have hlater : log.lastStamp < log.nextStamp now := by
    unfold nextStamp
    omega
  obtain ⟨channel, ⟨e, files', -, hdata, hid, happend, hwrite⟩ |
    ⟨place, more, error, hstored, -⟩⟩ := append_stored log files data now suffix
  · rw [happend]
    refine ⟨e, hdata, ⟨rfl, rfl, hlater, ⟨suffix, hid⟩, rfl⟩, canStore_iff.mpr ?_⟩
    intro place hplace
    obtain ⟨hfree, hadded⟩ := append_of_write (hwrite place hplace)
    exact ⟨hfree, Or.inl ⟨_, FileTree.lookup_append_self hadded⟩⟩
  · obtain ⟨e, he⟩ := h data now suffix
    unfold stored? at hstored
    rw [he] at hstored
    cases hstored

/-- The second log has stored these events more, in this order, and nothing else. -/
inductive Gains : EventLog → List Event → EventLog → Prop where
  | none (log : EventLog) : Gains log [] log
  | store {log log₁ log' : EventLog} {e : Event} {events : List Event} :
      Stores log e log₁ → Gains log₁ events log' → Gains log (e :: events) log'

/-! ## What is gained -/

namespace Gains

theorem le_lastStamp (h : Gains log events log') : log.lastStamp ≤ log'.lastStamp := by
  induction h with
  | none => exact Nat.le_refl _
  | store hstores _ ih => exact Nat.le_trans (Nat.le_of_lt hstores.later) ih

/-- Each id comes after all that could be in the log before. -/
theorem after (h : Gains log events log') (hfits : log'.lastStamp < 2 ^ 64) {stamp : Nat}
    (hstamp : stamp ≤ log.lastStamp) (suffix : Nat) :
    ∀ e ∈ events, Event.mintId stamp suffix < e.id := by
  induction h with
  | none => simp
  | @store log log₁ log' e events hstores hrest ih =>
    have hlater := hstores.later
    have hle := hrest.le_lastStamp
    intro x hx
    rcases List.mem_cons.mp hx with rfl | hx
    · obtain ⟨suffix', hid⟩ := hstores.minted
      rw [hid]
      exact Event.mintId_lt (by omega) (by omega) _ _
    · exact ih hfits (by omega) x hx

theorem sorted (h : Gains log events log') (hfits : log'.lastStamp < 2 ^ 64) :
    events.Pairwise (·.id < ·.id) := by
  induction h with
  | none => exact .nil
  | store hstores hrest ih =>
    refine .cons (fun x hx => ?_) (ih hfits)
    obtain ⟨suffix, hid⟩ := hstores.minted
    rw [hid]
    exact hrest.after hfits (Nat.le_refl _) suffix x hx

/-- What the log holds then: the new events, and what it held. -/
theorem get? (h : Gains log events log') (hfits : log'.lastStamp < 2 ^ 64) :
    (∀ e ∈ events, log'.entries.get? e.id = some e.data) ∧
      ∀ id, (∀ e ∈ events, e.id ≠ id) → log'.entries.get? id = log.entries.get? id := by
  induction h with
  | none => simp
  | @store log log₁ log' e events hstores hrest ih =>
    obtain ⟨hnew, hold⟩ := ih hfits
    have hkept : ∀ id, (∀ x ∈ events, x.id ≠ id) → log'.entries.get? id =
        if id = e.id then some e.data else log.entries.get? id := by
      intro id hid
      rw [hold id hid, hstores.entries, Dictionary.get?_insert]
    obtain ⟨suffix, hid⟩ := hstores.minted
    refine ⟨List.forall_mem_cons.mpr ⟨?_, hnew⟩, fun id hne => ?_⟩
    · rw [hkept e.id fun x hx heq => ?_, if_pos rfl]
      have hlt := hrest.after hfits (Nat.le_refl _) suffix x hx
      rw [← hid, heq] at hlt
      exact String.lt_irrefl _ hlt
    · obtain ⟨hne, hrest⟩ := List.forall_mem_cons.mp hne
      rw [hkept id hrest, if_neg (Ne.symm hne)]

theorem ordered (h : Gains log events log') (hfits : log'.lastStamp < 2 ^ 64)
    (hordered : log.Ordered old) : log'.Ordered (old ++ events) := by
  induction h generalizing old with
  | none => simpa using hordered
  | @store log log₁ log' e events hstores hrest ih =>
    obtain ⟨suffix, hid⟩ := hstores.minted
    have hstamp : log₁.lastStamp < 2 ^ 64 := Nat.lt_of_le_of_lt hrest.le_lastStamp hfits
    have htaken : log₁.Ordered (old ++ [e]) :=
      (hordered.taking hstores.later hstamp hid).stamped (Nat.le_refl _) hstamp hstores.entries rfl
    rw [List.append_cons]
    exact ih hfits htaken

end Gains

end EventLog

end FeatureGraph
