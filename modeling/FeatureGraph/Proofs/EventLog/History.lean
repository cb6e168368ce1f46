-- The order of a log through its whole life. Each event goes behind all that
-- are there, in memory as in the file, and the greatest stamp that a file
-- gives back is that of its last event. So the order of the ids is the order
-- of the appends, whatever the clock says and however often the log is opened.
import FeatureGraph.Proofs.EventLog.Reopening

namespace FeatureGraph

namespace EventLog

/-! ## The life of a log -/

variable {home : Option String} {log log' : EventLog} {files files' : FileTree}
  {events : List Event} {e : Event} {place : Path} {path : String} {channel : Channel}

/-- The event that an append stores, if the file takes it. It stays stored if it cannot be sent. -/
def stored? (log : EventLog) (files : FileTree) (data : Json) (now : Int) (suffix : Nat) :
    Option Event :=
  match (log.store files data now suffix).1 with
  | .ok e => some e
  | .error _ => none

/-- A log after appends and reopenings, and the events that it stored, in the order of their
appends. It began empty, in memory or in a folder without a file of events. The clock is read as
a signed number of 64 bits, and a stamp is an unsigned one. -/
inductive History : Option String → EventLog → FileTree → List Event → Prop where
  | inMemory (channel : Channel) (files : FileTree) : History none (inMemory channel) files []
  | inFolder {path : String} {channel : Channel} {log : EventLog} {files files' : FileTree}
      (hopen : openFolder files path channel = (.ok log, files'))
      (hnew : ∀ place, log.file = some place → files'.lookup place = none) :
      History (some path) log files' []
  | append {home : Option String} {log : EventLog} {files : FileTree} {events : List Event}
      (h : History home log files events) (data : Json) (now : Int) (suffix : Nat)
      (hclock : now < 2 ^ 63) (hlast : log.lastStamp ≠ 2 ^ 64 - 1) :
      History home (log.append files data now suffix).2.1 (log.append files data now suffix).2.2
        (events ++ (log.stored? files data now suffix).toList)
  | reopen {path : String} {log log' : EventLog} {files files' : FileTree} {events : List Event}
      (h : History (some path) log files events) (channel : Channel)
      (hopen : openFolder files path channel = (.ok log', files')) :
      History (some path) log' files' events

/-! ## What an append does -/

/-- An event is stored under the next stamp, and its line is written to the file; or the file
refuses it, and only its stamp is used up. -/
theorem store_eq (log : EventLog) (files : FileTree) (data : Json) (now : Int) (suffix : Nat) :
    (∃ e files', log.store files data now suffix =
        (.ok e, log.taking (log.nextStamp now) e, files') ∧
      e.data = data ∧ e.id = Event.mintId (log.nextStamp now) suffix ∧
      ∀ place, log.file = some place → log.write files place (Event.lines [e]) = .ok files') ∨
    (∃ place more error, log.store files data now suffix =
        (.error (.io error), { log with lastStamp := log.nextStamp now }, files) ∧
      log.file = some place ∧ log.write files place more = .error error) := by
  have hline (e : Event) : Text.encode (e.line ++ "\n") = Event.lines [e] := by
    unfold Event.lines
    rw [List.flatMap_singleton, Text.encode_append]
    rfl
  unfold store
  dsimp only
  generalize Event.mintId (log.nextStamp now) suffix = id
  split
  · rename_i hnone
    refine Or.inl ⟨⟨id, data⟩, files, rfl, rfl, rfl, fun place hplace => ?_⟩
    exact absurd (hnone.symm.trans hplace) (by simp)
  · rename_i place hfile
    rw [hline]
    cases hwrite : log.write files place (Event.lines [⟨id, data⟩]) with
    | ok files' =>
      refine Or.inl ⟨⟨id, data⟩, files', rfl, rfl, rfl, fun place' hplace => ?_⟩
      obtain rfl : place = place' := Option.some.inj (hfile.symm.trans hplace)
      exact hwrite
    | error error => exact Or.inr ⟨place, _, error, rfl, hfile, hwrite⟩

/-- To send what was stored changes nothing but the channel. -/
theorem append_eq_store (log : EventLog) (files : FileTree) (data : Json) (now : Int)
    (suffix : Nat) : ∃ channel, (log.append files data now suffix).2 =
      ({ (log.store files data now suffix).2.1 with channel := channel },
        (log.store files data now suffix).2.2) := by
  unfold append
  rcases log.store files data now suffix with ⟨e | e, log₁, files₁⟩
  · exact ⟨log₁.channel, rfl⟩
  · unfold publish
    dsimp only
    cases log₁.channel.publish e with
    | error e => exact ⟨log₁.channel, rfl⟩
    | ok channel => exact ⟨channel, rfl⟩

/-- An id that an append gives is that of the stored event. -/
theorem stored?_of_append {data : Json} {now : Int} {suffix : Nat} {id : String}
    (h : (log.append files data now suffix).1 = .ok id) :
    log.stored? files data now suffix = some ⟨id, data⟩ := by
  unfold append at h
  unfold stored?
  rcases hstore : log.store files data now suffix with ⟨e | e, log₁, files₁⟩
  · rw [hstore] at h
    cases h
  · obtain ⟨stamp, -, he, -, -⟩ := store_ok hstore
    rw [hstore] at h
    dsimp only at h ⊢
    cases hpublish : log₁.publish e with
    | error e =>
      rw [hpublish] at h
      cases h
    | ok log₂ =>
      rw [hpublish] at h
      cases h
      rw [he]

/-- An append stores an event under the next stamp and writes its line to the file; or the file
refuses it, and the entries stay. -/
theorem append_stored (log : EventLog) (files : FileTree) (data : Json) (now : Int)
    (suffix : Nat) : ∃ channel,
    (∃ e files', log.stored? files data now suffix = some e ∧ e.data = data ∧
      e.id = Event.mintId (log.nextStamp now) suffix ∧
      (log.append files data now suffix).2 =
        ({ log.taking (log.nextStamp now) e with channel := channel }, files') ∧
      ∀ place, log.file = some place → log.write files place (Event.lines [e]) = .ok files') ∨
    (∃ place more error, log.stored? files data now suffix = none ∧
      (log.append files data now suffix).2 =
        ({ log with lastStamp := log.nextStamp now, channel := channel }, files) ∧
      log.file = some place ∧ log.write files place more = .error error) := by
  obtain ⟨channel, happend⟩ := append_eq_store log files data now suffix
  refine ⟨channel, ?_⟩
  unfold stored?
  rw [happend]
  rcases store_eq log files data now suffix with ⟨e, files', hstore, hdata, hid, hwrite⟩ |
    ⟨place, more, error, hstore, hfile, hwrite⟩
  · rw [hstore]
    exact Or.inl ⟨e, files', rfl, hdata, hid, rfl, hwrite⟩
  · rw [hstore]
    exact Or.inr ⟨place, more, error, rfl, rfl, hfile, hwrite⟩

/-! ## Events in the order of their ids -/

/-- The entries of the log are these events, in the order in which they were stored, and no stamp
of them is greater than the last one. -/
structure Ordered (log : EventLog) (events : List Event) : Prop where
  entries : log.entries.toList = events.map fun e => (e.id, e.data)
  minted : ∀ e ∈ events, ∃ stamp suffix, stamp ≤ log.lastStamp ∧ e.id = Event.mintId stamp suffix
  fits : log.lastStamp < 2 ^ 64

theorem Ordered.keys (h : log.Ordered events) : log.entries.keys = events.map (·.id) := by
  have hkeys := congrArg (List.map Prod.fst) h.entries
  rw [List.map_map] at hkeys
  exact hkeys

theorem Ordered.isHexId (h : log.Ordered events) {id : String} (hid : id ∈ log.entries.keys) :
    Event.IsHexId id := by
  rw [h.keys, List.mem_map] at hid
  obtain ⟨e, he, rfl⟩ := hid
  obtain ⟨stamp, suffix, -, heq⟩ := h.minted e he
  rw [heq]
  exact Event.isHexId_mintId stamp suffix

/-- A new id is greater than all before it. -/
theorem Ordered.lt_mintId (h : log.Ordered events) {stamp : Nat} (hlater : log.lastStamp < stamp)
    (hfits : stamp < 2 ^ 64) (suffix : Nat) :
    ∀ id ∈ log.entries.keys, id < Event.mintId stamp suffix := by
  intro id hid
  rw [h.keys, List.mem_map] at hid
  obtain ⟨e, he, rfl⟩ := hid
  obtain ⟨stamp', suffix', hle, heq⟩ := h.minted e he
  rw [heq]
  exact Event.mintId_lt (Nat.lt_of_le_of_lt hle hlater) hfits _ _

theorem Ordered.sorted (h : log.Ordered events) : events.Pairwise (·.id < ·.id) := by
  have hsorted := log.entries.sorted
  have hentries : log.entries.entries = events.map fun e => (e.id, e.data) := h.entries
  rw [hentries, List.pairwise_map] at hsorted
  exact hsorted

theorem ordered_nil (h : log.entries = .empty) (hstamp : log.lastStamp = 0) : log.Ordered [] where
  entries := by rw [h]; rfl
  minted := by simp
  fits := by omega

theorem Ordered.stamped (h : log.Ordered events) {stamp : Nat} (hle : log.lastStamp ≤ stamp)
    (hfits : stamp < 2 ^ 64) (hentries : log'.entries = log.entries)
    (hstamp : log'.lastStamp = stamp) : log'.Ordered events where
  entries := by rw [hentries, h.entries]
  minted := by
    intro e he
    obtain ⟨stamp', suffix, hle', heq⟩ := h.minted e he
    exact ⟨stamp', suffix, by omega, heq⟩
  fits := by omega

theorem Ordered.taking (h : log.Ordered events) {stamp : Nat} (hlater : log.lastStamp < stamp)
    (hfits : stamp < 2 ^ 64) {suffix : Nat} (hid : e.id = Event.mintId stamp suffix) :
    (log.taking stamp e).Ordered (events ++ [e]) where
  entries := by
    have hlast : ∀ k ∈ log.entries.keys, k < e.id := by
      rw [hid]
      exact h.lt_mintId hlater hfits suffix
    have hinsert : (log.entries.insert e.id e.data).toList = log.entries.toList ++ [(e.id, e.data)] :=
      Dictionary.toList_insert_last hlast
    rw [List.map_append, ← h.entries]
    exact hinsert
  minted := by
    intro x hx
    rcases List.mem_append.mp hx with hx | hx
    · obtain ⟨stamp', suffix', hle, heq⟩ := h.minted x hx
      exact ⟨stamp', suffix', Nat.le_of_lt (Nat.lt_of_le_of_lt hle hlater), heq⟩
    · obtain rfl := List.mem_singleton.mp hx
      exact ⟨stamp, suffix, Nat.le_refl _, hid⟩
  fits := hfits

theorem Ordered.since_none (h : log.Ordered events) : log.since none = events := by
  unfold since
  rw [h.entries]
  simp [Function.comp_def]

theorem Ordered.since_some (h : log.Ordered events) {front back : List Event}
    (heq : events = front ++ e :: back) : log.since (some e.id) = back := by
  have hsorted := h.sorted
  rw [heq, List.pairwise_append, List.pairwise_cons] at hsorted
  obtain ⟨-, ⟨hback, -⟩, hfront⟩ := hsorted
  unfold since
  simp only [h.entries, heq, List.map_append, List.map_cons, List.filter_append,
    List.filter_cons, List.filter_map, List.map_map]
  have hnone : front.filter (fun x => decide (e.id < x.id)) = [] := by
    rw [List.filter_eq_nil_iff]
    intro x hx
    have hlt : x.id < e.id := hfront x hx e List.mem_cons_self
    rw [decide_eq_true_iff]
    exact Std.not_lt.mpr (Std.le_of_lt hlt)
  have hall : back.filter (fun x => decide (e.id < x.id)) = back := by
    rw [List.filter_eq_self]
    exact fun x hx => decide_eq_true (hback x hx)
  have hself : decide (e.id < e.id) = false := decide_eq_false (Std.lt_irrefl (a := e.id))
  simp only [Function.comp_def, hnone, hall, hself, List.map_nil, List.nil_append,
    Bool.false_eq_true, if_false]
  simp [Function.comp_def]

/-! ## The file of a log -/

/-- The file in the folder holds the lines of the events that the log stored, and nothing else. It
can be written, unless its path is too long. -/
structure Filed (path : String) (root : Path) (log : EventLog) (files : FileTree)
    (events : List Event) : Prop where
  made : files.makeFolder path = (.ok root, files)
  folder : files.lookup root = some .folder
  file : log.file = some (root ++ [fileName])
  barred : log.barred = FileTree.textFault? (FileTree.roomIn path) fileName
  unused : log.barred ≠ none → events = []
  plain : files.lookup (root ++ [fileName]) ≠ some .folder
  content : files.contentAt (root ++ [fileName]) = Event.lines events

variable {root : Path}

/-- A log whose path is too long is opened without events. -/
theorem openFolder_barred {error : IoError} (hmade : files.makeFolder path = (.ok root, files'))
    (hname : FileTree.textFault? (FileTree.roomIn path) fileName = some error)
    (channel : Channel) : openFolder files path channel =
      (.ok { keptAt channel (root ++ [fileName]) with barred := some error }, files') := by
  unfold openFolder
  simp only [hmade, hname]
  rfl

/-- A new log in a folder has a file without lines. -/
theorem filed_of_openFolder (hopen : openFolder files path channel = (.ok log, files'))
    (hnew : ∀ place, log.file = some place → files'.lookup place = none) :
    ∃ root, Filed path root log files' [] ∧ log.Ordered [] := by
  obtain ⟨root, hmade, hfile, -⟩ := openFolder_eq_ok hopen
  obtain ⟨hfolder, hagain⟩ := FileTree.makeFolder_eq_ok hmade
  have hnone : files'.lookup (root ++ [fileName]) = none := hnew _ hfile
  have hcontent : files'.contentAt (root ++ [fileName]) = [] := by
    unfold FileTree.contentAt
    rw [hnone]
  have hlog : log = { keptAt channel (root ++ [fileName]) with
      barred := FileTree.textFault? (FileTree.roomIn path) fileName } := by
    cases hname : FileTree.textFault? (FileTree.roomIn path) fileName with
    | some error =>
      rw [openFolder_barred hmade hname] at hopen
      cases hopen
      rfl
    | none =>
      rw [openFolder_eq hmade hname (by simp [hnone]), hcontent] at hopen
      cases hopen
      rfl
  subst hlog
  refine ⟨root, ⟨hagain, hfolder, rfl, rfl, fun _ => rfl, by simp [hnone], hcontent⟩, ?_⟩
  exact ordered_nil rfl rfl

theorem Filed.stamped (h : Filed path root log files events) (hfile : log'.file = log.file)
    (hbarred : log'.barred = log.barred) : Filed path root log' files events :=
  { h with
    file := hfile.trans h.file
    barred := hbarred.trans h.barred
    unused := fun hne => h.unused (hbarred ▸ hne) }

/-- The line of a new event goes behind the others. -/
theorem Filed.written (h : Filed path root log files events)
    (hwrite : log.write files (root ++ [fileName]) (Event.lines [e]) = .ok files') :
    Filed path root log files' (events ++ [e]) := by
  obtain ⟨hfree, hadded⟩ := append_of_write hwrite
  have hself := FileTree.lookup_append_self hadded
  have hkept : ∀ q, files.lookup q = some .folder → files'.lookup q = some .folder := by
    intro q hq
    rw [FileTree.lookup_append_ne hadded, hq]
    rintro rfl
    exact h.plain hq
  refine ⟨FileTree.makeFolder_again h.made hkept, hkept _ h.folder, h.file, h.barred,
    fun hne => absurd hfree hne, by simp [hself], ?_⟩
  unfold FileTree.contentAt
  rw [hself, h.content]
  simp [Event.lines]

/-- Nothing is refused by a file whose path is not too long. -/
theorem Filed.write (h : Filed path root log files events) (hfree : log.barred = none)
    (more : Bytes) : ∃ files', log.write files (root ++ [fileName]) more = .ok files' := by
  have hparent : (root ++ [fileName]).dropLast = root := List.dropLast_concat
  unfold EventLog.write FileTree.append
  rw [hfree, hparent, h.folder]
  cases hplace : files.lookup (root ++ [fileName]) with
  | none => exact ⟨_, rfl⟩
  | some entry =>
    cases entry with
    | file content => exact ⟨_, rfl⟩
    | folder => exact absurd hplace h.plain

/-! ## Opening a log again -/

theorem le_lastStamp_foldl_loading (log : EventLog) (events : List Event) :
    log.lastStamp ≤ (events.foldl loading log).lastStamp ∧
      ∀ e ∈ events, Event.stampOf e.id ≤ (events.foldl loading log).lastStamp := by
  induction events generalizing log with
  | nil => simp
  | cons e rest ih =>
    obtain ⟨hlog, hrest⟩ := ih (log.loading e)
    have hnext : (log.loading e).lastStamp = max log.lastStamp (Event.stampOf e.id) := rfl
    rw [List.foldl_cons, List.forall_mem_cons]
    exact ⟨by omega, by omega, hrest⟩

theorem lastStamp_foldl_loading_lt {bound : Nat} (hlog : log.lastStamp < bound)
    (h : ∀ e ∈ events, Event.stampOf e.id < bound) :
    (events.foldl loading log).lastStamp < bound := by
  induction events generalizing log with
  | nil => exact hlog
  | cons e rest ih =>
    obtain ⟨he, hrest⟩ := List.forall_mem_cons.mp h
    have hnext : (log.loading e).lastStamp = max log.lastStamp (Event.stampOf e.id) := rfl
    exact ih (by omega) hrest

/-- Events that are loaded in the order of their ids are in this order, and the last stamp is
found again. -/
theorem Ordered.loaded (h : log.Ordered events) {fresh : EventLog}
    (hempty : fresh.entries = .empty) (hstamp : fresh.lastStamp = 0) :
    (events.foldl loading fresh).Ordered events where
  entries := by
    have hpairs : ((events.map fun e => (e.id, e.data)).foldl (fun d e => d.insert e.1 e.2)
        fresh.entries).toList = fresh.entries.toList ++ events.map fun e => (e.id, e.data) := by
      apply Dictionary.toList_foldl_insert
      · rw [List.pairwise_map]
        exact h.sorted
      · rw [hempty]
        simp [Dictionary.keys, Dictionary.empty]
    rw [entries_foldl_loading, ← List.foldl_map (f := fun e : Event => (e.id, e.data))
      (g := fun (d : Dictionary Json) e => d.insert e.1 e.2), hpairs, hempty]
    rfl
  minted := by
    intro e he
    obtain ⟨stamp, suffix, hle, hid⟩ := h.minted e he
    have hread : Event.stampOf e.id = stamp := by
      rw [hid]
      exact Event.stampOf_mintId (Nat.lt_of_le_of_lt hle h.fits) suffix
    exact ⟨stamp, suffix, hread ▸ (le_lastStamp_foldl_loading fresh events).2 e he, hid⟩
  fits := by
    apply lastStamp_foldl_loading_lt
    · omega
    · intro e he
      obtain ⟨stamp, suffix, hle, hid⟩ := h.minted e he
      have hfits : stamp < 2 ^ 64 := Nat.lt_of_le_of_lt hle h.fits
      rw [hid, Event.stampOf_mintId hfits]
      exact hfits

/-- A log is opened again with all of its events. -/
theorem Filed.reopened (h : Filed path root log files events) (hordered : log.Ordered events)
    (hreads : ∀ e ∈ events, e.ReadsBack) (channel : Channel) :
    ∃ log', openFolder files path channel = (.ok log', files) ∧
      Filed path root log' files events ∧ log'.Ordered events := by
  cases hbarred : log.barred with
  | some error =>
    have hname : FileTree.textFault? (FileTree.roomIn path) fileName = some error :=
      h.barred.symm.trans hbarred
    obtain rfl : events = [] := h.unused (by simp [hbarred])
    refine ⟨_, openFolder_barred h.made hname channel, h.stamped h.file.symm hbarred.symm, ?_⟩
    exact ordered_nil rfl rfl
  | none =>
    have hname : FileTree.textFault? (FileTree.roomIn path) fileName = none :=
      h.barred.symm.trans hbarred
    have hload := loadLines_lines hreads (keptAt channel (root ++ [fileName]))
    obtain ⟨hfile', hbarred'⟩ := loadLines_frame hload
    refine ⟨_, ?_, h.stamped (hfile'.trans h.file.symm) (hbarred'.trans hbarred.symm),
      hordered.loaded rfl rfl⟩
    rw [openFolder_eq h.made hname h.plain, h.content, hload]

/-! ## The order of a log -/

theorem nextStamp_fits {now : Int} (hclock : now < 2 ^ 63) (hlast : log.lastStamp ≠ 2 ^ 64 - 1)
    (hfits : log.lastStamp < 2 ^ 64) :
    log.lastStamp < log.nextStamp now ∧ log.nextStamp now < 2 ^ 64 := by
  unfold nextStamp
  omega

/-- What holds of a log at every time of its life. -/
structure Sound (home : Option String) (log : EventLog) (files : FileTree)
    (events : List Event) : Prop where
  ordered : log.Ordered events
  unfiled : home = none → log.file = none
  filed : ∀ path, home = some path → ∃ root, Filed path root log files events

theorem Sound.append (h : Sound home log files events) (data : Json) {now : Int} (suffix : Nat)
    (hclock : now < 2 ^ 63) (hlast : log.lastStamp ≠ 2 ^ 64 - 1) :
    Sound home (log.append files data now suffix).2.1 (log.append files data now suffix).2.2
      (events ++ (log.stored? files data now suffix).toList) := by
  obtain ⟨hlater, hfits⟩ := nextStamp_fits hclock hlast h.ordered.fits
  obtain ⟨channel, ⟨e, files', hstored, -, hid, happend, hwrite⟩ |
    ⟨place, more, error, hstored, happend, hfile, -⟩⟩ := append_stored log files data now suffix
  · rw [happend, hstored, Option.toList_some]
    have htaken : (log.taking (log.nextStamp now) e).Ordered (events ++ [e]) :=
      h.ordered.taking hlater hfits hid
    refine ⟨htaken.stamped (Nat.le_refl _) hfits rfl rfl, h.unfiled, fun path hpath => ?_⟩
    obtain ⟨root, hfiled⟩ := h.filed path hpath
    exact ⟨root, (hfiled.written (hwrite _ hfiled.file)).stamped rfl rfl⟩
  · rw [happend, hstored, Option.toList_none, List.append_nil]
    refine ⟨h.ordered.stamped (Nat.le_of_lt hlater) hfits rfl rfl, h.unfiled,
      fun path hpath => ?_⟩
    obtain ⟨root, hfiled⟩ := h.filed path hpath
    exact ⟨root, hfiled.stamped rfl rfl⟩

theorem History.sound (h : History home log files events) (hreads : ∀ e ∈ events, e.ReadsBack) :
    Sound home log files events := by
  induction h with
  | inMemory channel files => exact ⟨ordered_nil rfl rfl, fun _ => rfl, by simp⟩
  | inFolder hopen hnew =>
    obtain ⟨root, hfiled, hordered⟩ := filed_of_openFolder hopen hnew
    refine ⟨hordered, by simp, fun path hpath => ?_⟩
    cases hpath
    exact ⟨root, hfiled⟩
  | append h data now suffix hclock hlast ih =>
    have hbefore := (List.forall_mem_append.mp hreads).1
    exact (ih hbefore).append data suffix hclock hlast
  | reopen h channel hopen ih =>
    obtain ⟨root, hfiled⟩ := (ih hreads).filed _ rfl
    obtain ⟨log₁, hagain, hfiled', hordered⟩ := hfiled.reopened (ih hreads).ordered hreads channel
    rw [hagain] at hopen
    cases hopen
    refine ⟨hordered, by simp, fun path hpath => ?_⟩
    cases hpath
    exact ⟨root, hfiled'⟩

/-- Unless the path of its file is too long, a log stores every event. -/
theorem Sound.stores (h : Sound home log files events) (hfree : log.barred = none)
    (data : Json) (now : Int) (suffix : Nat) :
    ∃ e, log.stored? files data now suffix = some e := by
  obtain ⟨channel, ⟨e, -, hstored, -⟩ | ⟨place, more, error, -, -, hfile, hwrite⟩⟩ :=
    append_stored log files data now suffix
  · exact ⟨e, hstored⟩
  · cases home with
    | none =>
      rw [h.unfiled rfl] at hfile
      cases hfile
    | some path =>
      obtain ⟨root, hfiled⟩ := h.filed path rfl
      obtain rfl : root ++ [fileName] = place := Option.some.inj (hfiled.file.symm.trans hfile)
      obtain ⟨files', hwritten⟩ := hfiled.write hfree more
      rw [hwritten] at hwrite
      cases hwrite

/-- Ids are in the order of the appends, through the whole life of a log: each new id has 32
digits and is greater than all before it; the events after an id are those that were appended
later, in the order of their appends; and the log can be opened again, with the same events. -/
theorem ids_are_in_append_order (h : History home log files events)
    (hreads : ∀ e ∈ events, e.ReadsBack) :
    log.since none = events ∧
    (∀ front e back, events = front ++ e :: back → log.since (some e.id) = back) ∧
    (∀ data now suffix, now < 2 ^ 63 → log.lastStamp ≠ 2 ^ 64 - 1 →
      (log.barred = none → ∃ e, log.stored? files data now suffix = some e) ∧
      (∀ id, (log.append files data now suffix).1 = .ok id →
        log.stored? files data now suffix = some ⟨id, data⟩) ∧
      ∀ e, log.stored? files data now suffix = some e → e.data = data ∧ Event.IsHexId e.id ∧
        ∀ id ∈ log.entries.keys, Text.encode id < Text.encode e.id) ∧
    ∀ path channel, home = some path → ∃ log', openFolder files path channel = (.ok log', files) ∧
      log'.entries = log.entries ∧ History home log' files events := by
  have hsound := h.sound hreads
  refine ⟨hsound.ordered.since_none, fun front e back heq => hsound.ordered.since_some heq,
    fun data now suffix hclock hlast => ?_, fun path channel hpath => ?_⟩
  · refine ⟨fun hfree => hsound.stores hfree data now suffix, fun id hid => stored?_of_append hid,
      fun e he => ?_⟩
    obtain ⟨hlater, hfits⟩ := nextStamp_fits hclock hlast hsound.ordered.fits
    obtain ⟨channel, ⟨e', -, hstored, hdata, hid, -⟩ | ⟨place, more, error, hstored, -⟩⟩ :=
      append_stored log files data now suffix
    · obtain rfl : e = e' := Option.some.inj (he.symm.trans hstored)
      have hhex : Event.IsHexId e.id := hid ▸ Event.isHexId_mintId _ _
      refine ⟨hdata, hhex, fun id hmem => ?_⟩
      have hlt : id < e.id := hid ▸ hsound.ordered.lt_mintId hlater hfits suffix id hmem
      exact Text.encode_lt hlt (hsound.ordered.isHexId hmem).ascii hhex.ascii
    · rw [hstored] at he
      cases he
  · subst hpath
    obtain ⟨root, hfiled⟩ := hsound.filed path rfl
    obtain ⟨log', hopen, -, hordered⟩ := hfiled.reopened hsound.ordered hreads channel
    refine ⟨log', hopen, ?_, h.reopen channel hopen⟩
    have hsame : log'.entries.toList = log.entries.toList :=
      hordered.entries.trans hsound.ordered.entries.symm
    exact Dictionary.eq_of_toList_eq hsame

/-! ## A clock that is set back -/

/-- What a log stores after its first event when the clock is set back, before the epoch. -/
def secondEvent : Event := ⟨Event.mintId 2 0, .null⟩

theorem secondEvent_readsBack : secondEvent.ReadsBack := by
  with_unfolding_all rfl

/-- The log of the first event after it was opened again. -/
def firstReopened : EventLog := newLog.loading firstEvent

theorem history_firstReopened :
    History (some "d") firstReopened (grownTree folderD) [firstEvent] := by
  have hbegun : History (some "d") newLog folderD [] := by
    refine .inFolder open_newLog fun place hplace => ?_
    cases hplace
    decide +kernel
  have hgrown : History (some "d") (grown newLog) (grownTree folderD) [firstEvent] :=
    hbegun.append .null 0 0 (by decide) (by decide)
  refine hgrown.reopen unheard ?_
  have hmade : FileTree.makeFolder (grownTree folderD) "d" = (.ok ["d"], grownTree folderD) := by
    unfold FileTree.makeFolder
    rw [FileTree.names_d]
    with_unfolding_all rfl
  have hcontent : (grownTree folderD).contentAt placeInD = Event.lines [firstEvent] := by
    with_unfolding_all rfl
  have hload : newLog.loadLines (FileTree.splitLines (Event.lines [firstEvent])) =
      .ok firstReopened :=
    loadLines_lines (List.forall_mem_singleton.mpr firstEvent_readsBack) newLog
  rw [openFolder_eq hmade (by decide +kernel) (by decide +kernel)]
  exact congrArg (·, grownTree folderD) ((congrArg _ (congrArg _ hcontent)).trans hload)

/-- The log and its files with one event more, at a time before the epoch. -/
def setBack : EventLog × FileTree := (firstReopened.append (grownTree folderD) .null (-5) 0).2

/-- The log goes on behind its first event, though the clock does not. -/
theorem clock_is_set_back :
    History (some "d") setBack.1 setBack.2 [firstEvent, secondEvent] ∧
    (∀ e ∈ [firstEvent, secondEvent], e.ReadsBack) ∧
    setBack.1.since (some firstEvent.id) = [secondEvent] := by
  have hstored : firstReopened.stored? (grownTree folderD) .null (-5) 0 = some secondEvent := by
    with_unfolding_all rfl
  have hhistory := history_firstReopened.append .null (-5) 0 (by decide) (by decide +kernel)
  rw [hstored] at hhistory
  have hreads : ∀ e ∈ [firstEvent, secondEvent], e.ReadsBack := by
    rw [List.forall_mem_cons, List.forall_mem_singleton]
    exact ⟨firstEvent_readsBack, secondEvent_readsBack⟩
  exact ⟨hhistory, hreads,
    (ids_are_in_append_order hhistory hreads).2.1 [] firstEvent [secondEvent] rfl⟩

end EventLog

end FeatureGraph
