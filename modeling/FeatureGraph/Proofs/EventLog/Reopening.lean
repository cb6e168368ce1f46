-- Opening a log again. Each event is added to the file as one whole line, so
-- the lines that were there and those that were added are read back in turn.
-- But a file whose last line is not ended is opened as well; then the first
-- event that is added stands on that line, and the line is no event any more.
import FeatureGraph.Proofs.EventLog.Ids
import FeatureGraph.Proofs.Files.Lines
import FeatureGraph.Proofs.Json.OneLine
import FeatureGraph.Proofs.Text.Words

namespace FeatureGraph

/-! ## Reading records -/

namespace Json

variable {fields : List String} {bs blanks : Bytes}

theorem parseRecord?_blanks_append (h : skipBlanks blanks = []) (fields : List String)
    (bs : Bytes) : parseRecord? fields (blanks ++ bs) = parseRecord? fields bs := by
  simp only [parseRecord?, complete, arrayItems, objectMembers, skipBlanks_append_blanks h]

theorem parseRecord?_blanks (h : skipBlanks blanks = []) : parseRecord? fields blanks = none := by
  simp [parseRecord?, complete, arrayItems, objectMembers, h]

/-- A record begins with a bracket. -/
theorem parseRecord?_of_first {b : UInt8} {rest : Bytes} (h : skipBlanks bs = b :: rest)
    (harray : b ≠ 0x5B) (hobject : b ≠ 0x7B) : parseRecord? fields bs = none := by
  simp [parseRecord?, complete, arrayItems, objectMembers, h, harray, hobject]

end Json

namespace Event

variable {e : Event} {bs more : Bytes}

/-- The event is read back from its line. -/
def ReadsBack (e : Event) : Prop := parse? (Text.encode e.line) = some e

theorem parse?_eq_some (h : parse? bs = some e) :
    Json.parseRecord? ["id", "data"] bs = some [.string e.id, e.data] := by
  unfold parse? at h
  split at h
  · rename_i id data hrecord
    cases h
    exact hrecord
  · cases h

theorem parse?_of_none (h : Json.parseRecord? ["id", "data"] bs = none) : parse? bs = none := by
  simp only [parse?, h]

theorem parse?_blanks_append (h : Json.skipBlanks bs = []) (more : Bytes) :
    parse? (bs ++ more) = parse? more := by
  rw [parse?, parse?, Json.parseRecord?_blanks_append h]

/-- A blank character that is no blank of the grammar does not begin an event. -/
theorem parse?_behind_blankLine {text : String} (h : Text.isBlankLine text = true)
    (hne : Json.skipBlanks (Text.encode text) ≠ []) (more : Bytes) :
    parse? (Text.encode text ++ more) = none := by
  obtain ⟨b, rest, hskip⟩ := List.exists_cons_of_ne_nil hne
  have hmem : b ∈ Text.encode text := by
    have hsuffix : Json.skipBlanks (Text.encode text) <:+ Text.encode text :=
      List.dropWhile_suffix _
    exact hsuffix.mem (hskip ▸ List.mem_cons_self)
  rw [Text.encode_eq, List.mem_flatMap] at hmem
  obtain ⟨c, hc, hbyte⟩ := hmem
  have hblank : Text.isBlank c = true := List.all_eq_true.mp h c hc
  refine parse?_of_none (Json.parseRecord?_of_first (Json.skipBlanks_cons_append hskip more) ?_ ?_)
  all_goals
    rintro rfl
    have hnumber := Text.toNat_of_mem_utf8EncodeChar (by decide) hbyte
    simp [Text.isBlank, hnumber] at hblank

/-- With more than blanks behind it, a line with an event is none any more. -/
theorem parse?_append (h : parse? bs = some e) (hmore : Json.skipBlanks more ≠ []) :
    parse? (bs ++ more) = none :=
  parse?_of_none (Json.parseRecord?_append (parse?_eq_some h) hmore)

/-! ## The line of an event -/

/-- What stands between the braces of an event's line. -/
def inner (e : Event) : List Char :=
  ['\x22', 'i', 'd', '\x22', ':'] ++ Json.stringChars e.id ++
    [',', '\x22', 'd', 'a', 't', 'a', '\x22', ':'] ++ e.data.chars

theorem toList_line (e : Event) : e.line.toList = '\x7b' :: (e.inner ++ ['\x7d']) := by
  have hid : "\x7b\x22id\x22:".toList = ['\x7b', '\x22', 'i', 'd', '\x22', ':'] := rfl
  have hdata : ",\x22data\x22:".toList = [',', '\x22', 'd', 'a', 't', 'a', '\x22', ':'] := rfl
  calc e.line.toList = "\x7b\x22id\x22:".toList ++ Json.stringChars e.id ++
        ",\x22data\x22:".toList ++ e.data.chars ++ ['\x7d'] := String.toList_ofList
    _ = _ := by
      rw [hid, hdata]
      rfl

theorem encode_line (e : Event) :
    Text.encode e.line = 0x7B :: (e.inner.flatMap String.utf8EncodeChar ++ [0x7D]) := by
  have hopen : String.utf8EncodeChar '\x7b' = [0x7B] := by decide
  have hclose : String.utf8EncodeChar '\x7d' = [0x7D] := by decide
  rw [Text.encode_eq, toList_line, List.flatMap_cons, List.flatMap_append, List.flatMap_singleton,
    hopen, hclose, List.singleton_append]

/-- An event that is read back stands on one line. -/
theorem ReadsBack.newline_notMem (h : e.ReadsBack) : 0x0A ∉ Text.encode e.line := by
  have hread : parse? (Text.encode e.line) = some e := h
  have hplain : e.data.Plain :=
    Json.plain_of_parseRecord? (parse?_eq_some hread) e.data (by simp)
  rw [Text.encode_eq, toList_line, List.mem_flatMap]
  rintro ⟨c, hc, hbyte⟩
  have hnumber : c.toNat = 10 := Text.toNat_of_mem_utf8EncodeChar (by decide) hbyte
  obtain rfl : c = '\n' := Char.ext (UInt32.toNat_inj.mp hnumber)
  have hid := Json.newline_notMem_stringChars e.id
  have hdata := hplain.newline_notMem_chars
  simp [inner, hid, hdata] at hc

/-- The bytes that are added to a file for these events. -/
def lines (events : List Event) : Bytes :=
  events.flatMap fun e => Text.encode e.line ++ [0x0A]

theorem splitLines_lines {events : List Event} (h : ∀ e ∈ events, e.ReadsBack) :
    FileTree.splitLines (lines events) = events.map fun e => Text.encode e.line := by
  induction events with
  | nil => rfl
  | cons e rest ih =>
    obtain ⟨he, hrest⟩ := List.forall_mem_cons.mp h
    have hclosed : (Text.encode e.line).getLast? ≠ some 0x0D := by
      rw [encode_line, ← List.cons_append, List.getLast?_append]
      simp
    rw [lines, List.flatMap_cons, List.append_assoc, List.singleton_append,
      FileTree.splitLines_line he.newline_notMem hclosed, List.map_cons]
    exact congrArg _ (ih hrest)

end Event

/-! ## Loading lines -/

namespace EventLog

variable {log log' : EventLog} {ls : List Bytes} {line : Bytes} {files files₁ files' : FileTree}
  {path : String} {channel channel' : Channel} {events : List Event} {e : Event} {place : Path}

/-- The log with an event that its file holds. -/
def loading (log : EventLog) (e : Event) : EventLog :=
  log.taking (max log.lastStamp (Event.stampOf e.id)) e

theorem loadLine_encode (log : EventLog) (text : String) :
    log.loadLine (Text.encode text) = if Text.isBlankLine text then .ok log else
      match Event.parse? (Text.encode text) with
      | none => .error .json
      | some e => .ok (log.loading e) := by
  rw [loadLine, Text.decode?_encode]
  rfl

theorem loadLines_append (log : EventLog) (ls ls' : List Bytes) :
    log.loadLines (ls ++ ls') = (log.loadLines ls).bind fun log => log.loadLines ls' := by
  induction ls generalizing log with
  | nil => rfl
  | cons line rest ih =>
    rw [List.cons_append, loadLines, loadLines]
    cases log.loadLine line with
    | error e => rfl
    | ok log => exact ih log

/-- What is loaded does not depend on how the log is kept and sent. -/
theorem loadLines_entries (log : EventLog) {log₁ : EventLog} (h : log₁.entries = log.entries)
    (ls : List Bytes) :
    (log₁.loadLines ls).map (·.entries) = (log.loadLines ls).map (·.entries) := by
  induction ls generalizing log log₁ with
  | nil => exact congrArg Except.ok h
  | cons line rest ih =>
    rw [loadLines, loadLines, loadLine, loadLine]
    cases Text.decode? line with
    | none => rfl
    | some text =>
      cases hblank : Text.isBlankLine text with
      | true =>
        simp only [hblank, if_true]
        exact ih log h
      | false =>
        simp only [hblank, Bool.false_eq_true, if_false]
        cases Event.parse? line with
        | none => rfl
        | some e =>
          exact ih (log.loading e) (congrArg (fun d : Dictionary Json => d.insert e.id e.data) h)

theorem loadLine_frame (h : log.loadLine line = .ok log') :
    log'.file = log.file ∧ log'.barred = log.barred := by
  unfold loadLine at h
  split at h
  · cases h
  · split at h
    · cases h
      exact ⟨rfl, rfl⟩
    · split at h
      · cases h
      · cases h
        exact ⟨rfl, rfl⟩

theorem loadLines_frame (h : log.loadLines ls = .ok log') :
    log'.file = log.file ∧ log'.barred = log.barred := by
  induction ls generalizing log with
  | nil =>
    cases h
    exact ⟨rfl, rfl⟩
  | cons line rest ih =>
    rw [loadLines] at h
    split at h
    · rename_i log₁ hline
      obtain ⟨hfile, hbarred⟩ := ih h
      obtain ⟨hfile₁, hbarred₁⟩ := loadLine_frame hline
      exact ⟨hfile.trans hfile₁, hbarred.trans hbarred₁⟩
    · cases h

/-- The lines of events that read back are loaded as these events. -/
theorem loadLines_lines (h : ∀ e ∈ events, e.ReadsBack) (log : EventLog) :
    log.loadLines (FileTree.splitLines (Event.lines events)) = .ok (events.foldl loading log) := by
  rw [Event.splitLines_lines h]
  induction events generalizing log with
  | nil => rfl
  | cons e rest ih =>
    obtain ⟨he, hrest⟩ := List.forall_mem_cons.mp h
    have hline : log.loadLine (Text.encode e.line) = .ok (log.loading e) := by
      have hnotBlank : Text.isBlankLine e.line = false := by
        rw [Text.isBlankLine, Event.toList_line]
        rfl
      have hread : Event.parse? (Text.encode e.line) = some e := he
      rw [loadLine_encode, hnotBlank, hread]
      rfl
    rw [List.map_cons, loadLines, hline]
    exact ih hrest (log.loading e)

theorem entries_foldl_loading (events : List Event) (log : EventLog) :
    (events.foldl loading log).entries =
      events.foldl (fun d e => d.insert e.id e.data) log.entries := by
  induction events generalizing log with
  | nil => rfl
  | cons e rest ih => exact ih (log.loading e)

theorem isBlankLine_append_line (text : String) (e : Event) :
    Text.isBlankLine (text ++ e.line) = false := by
  rw [Text.isBlankLine, String.toList_append, Event.toList_line, List.all_append, List.all_cons]
  have hbrace : Text.isBlank '\x7b' = false := by decide
  rw [hbrace, Bool.false_and, Bool.and_false]

/-- An event that is added behind a line that was loaded is loaded if the line has blanks alone. -/
theorem loadLine_behind {log₀ : EventLog} (hline : log₀.loadLine line = .ok log)
    (he : e.ReadsBack) : log₀.loadLine (line ++ Text.encode e.line) =
      if Json.skipBlanks line = [] then .ok (log.loading e) else .error .json := by
  obtain ⟨text, rfl⟩ : ∃ text, line = Text.encode text := by
    unfold loadLine at hline
    split at hline
    · cases hline
    · rename_i text hdecode
      exact ⟨text, Text.decode?_eq_some.mp hdecode⟩
  rw [loadLine_encode] at hline
  rw [← Text.encode_append, loadLine_encode, isBlankLine_append_line, Text.encode_append]
  simp only [Bool.false_eq_true, if_false]
  have hread : Event.parse? (Text.encode e.line) = some e := he
  by_cases hblank : Json.skipBlanks (Text.encode text) = []
  · have hsame : log₀ = log := by
      split at hline
      · exact Except.ok.inj hline
      · rw [Event.parse?_of_none (Json.parseRecord?_blanks hblank)] at hline
        cases hline
    rw [if_pos hblank, Event.parse?_blanks_append hblank, hread, hsame]
  · have hnone : Event.parse? (Text.encode text ++ Text.encode e.line) = none := by
      split at hline
      · rename_i htext
        exact Event.parse?_behind_blankLine htext hblank _
      · cases hparse : Event.parse? (Text.encode text) with
        | none =>
          rw [hparse] at hline
          cases hline
        | some e₀ =>
          refine Event.parse?_append hparse ?_
          rw [Event.encode_line]
          exact List.cons_ne_nil _ _
    rw [if_neg hblank, hnone]

/-! ## Opening a log -/

/-- A new log that this file keeps. -/
def keptAt (channel : Channel) (place : Path) : EventLog :=
  { inMemory channel with file := some place }

/-- A log is opened by loading the lines of its file. -/
theorem openFolder_eq {root : Path} (hmade : files.makeFolder path = (.ok root, files₁))
    (hname : FileTree.textFault? (FileTree.roomIn path) fileName = none)
    (hplace : files₁.lookup (root ++ [fileName]) ≠ some .folder) (channel : Channel) :
    openFolder files path channel = ((keptAt channel (root ++ [fileName])).loadLines
      (FileTree.splitLines (files₁.contentAt (root ++ [fileName]))), files₁) := by
  unfold openFolder FileTree.contentAt
  simp only [hmade, hname]
  split
  · rename_i heq
    cases heq
  · rename_i hnone
    rw [hnone]
    rfl
  · rename_i hfolder
    exact absurd hfolder hplace
  · rename_i content hfile
    rw [hfile]
    rfl

/-- A log that is opened has its file within the folder. If the path of the file is too long, it
is never opened; otherwise its lines are loaded. -/
theorem openFolder_eq_ok (h : openFolder files path channel = (.ok log, files₁)) :
    ∃ root, files.makeFolder path = (.ok root, files₁) ∧ log.file = some (root ++ [fileName]) ∧
      ((log.barred ≠ none ∧ ∀ channel', (openFolder files₁ path channel').1.map (·.entries) =
          .ok log.entries) ∨
        FileTree.textFault? (FileTree.roomIn path) fileName = none ∧
          files₁.lookup (root ++ [fileName]) ≠ some .folder ∧
          (keptAt channel (root ++ [fileName])).loadLines
            (FileTree.splitLines (files₁.contentAt (root ++ [fileName]))) = .ok log) := by
  rcases hmade : files.makeFolder path with ⟨e | root, files₂⟩
  · simp [openFolder, hmade] at h
  · cases hname : FileTree.textFault? (FileTree.roomIn path) fileName with
    | some e =>
      simp only [openFolder, hmade, hname, Prod.mk.injEq, Except.ok.injEq] at h
      obtain ⟨rfl, rfl⟩ := h
      refine ⟨root, rfl, rfl, Or.inl ⟨by simp, fun channel' => ?_⟩⟩
      have hagain := FileTree.makeFolder_again hmade fun q hq => hq
      simp only [openFolder, hagain, hname]
      rfl
    | none =>
      by_cases hplace : files₂.lookup (root ++ [fileName]) = some .folder
      · simp [openFolder, hmade, hname, hplace] at h
      · rw [openFolder_eq hmade hname hplace, Prod.mk.injEq] at h
        obtain ⟨hload, rfl⟩ := h
        exact ⟨root, rfl, (loadLines_frame hload).1, Or.inr ⟨rfl, hplace, hload⟩⟩

/-! ## Adding events -/

/-- Events that are appended in turn, each with success. -/
inductive Appended : EventLog → FileTree → List Event → EventLog → FileTree → Prop where
  | done (log : EventLog) (files : FileTree) : Appended log files [] log files
  | append {log log₁ log' : EventLog} {files files₁ files' : FileTree} {id : String} {data : Json}
      {now : Int} {suffix : Nat} {events : List Event}
      (h : log.append files data now suffix = (.ok id, log₁, files₁))
      (hrest : Appended log₁ files₁ events log' files') :
      Appended log files (⟨id, data⟩ :: events) log' files'

/-- An event is added to the entries, and its line to the file. -/
theorem append_ok {data : Json} {now : Int} {suffix : Nat} {id : String}
    (h : log.append files data now suffix = (.ok id, log', files'))
    (hfile : log.file = some place) :
    log.barred = none ∧ log'.file = some place ∧
      log'.entries = log.entries.insert id data ∧
      files.append place (Event.lines [⟨id, data⟩]) = .ok files' := by
  unfold append at h
  rcases hstore : log.store files data now suffix with ⟨e | event, log₁, files₁⟩
  · rw [hstore] at h
    cases h
  · rw [hstore] at h
    simp only at h
    cases hpublish : log₁.publish event with
    | error e =>
      rw [hpublish] at h
      cases h
    | ok log₂ =>
      rw [hpublish] at h
      cases h
      obtain ⟨stamp, -, hevent, hlog, hwrite⟩ := store_ok hstore
      obtain ⟨hentries, -, hfile', -⟩ := publish_eq_ok hpublish
      have hdata : event.data = data := by rw [hevent]
      obtain ⟨hfree, hadded⟩ := append_of_write (hwrite place hfile)
      refine ⟨hfree, ?_, ?_, ?_⟩
      · rw [hfile', hlog]
        exact hfile
      · rw [hentries, hlog, ← hdata]
        rfl
      · rw [← hdata, Event.lines, List.flatMap_singleton, ← hadded, Text.encode_append]
        rfl

theorem Appended.nil (h : Appended log files [] log' files') : log' = log ∧ files' = files := by
  cases h
  exact ⟨rfl, rfl⟩

/-- The lines of the events stand at the end of the file, and nothing else has changed. -/
theorem Appended.added (h : Appended log files events log' files') (hfile : log.file = some place) :
    log'.entries = events.foldl (fun d e => d.insert e.id e.data) log.entries ∧
      files'.contentAt place = files.contentAt place ++ Event.lines events ∧
      (∀ q, q ≠ place → files'.lookup q = files.lookup q) ∧
      (events ≠ [] → log.barred = none ∧ files'.lookup place ≠ some .folder) := by
  induction h with
  | done log files => exact ⟨rfl, by simp [Event.lines], fun _ _ => rfl, fun hne => absurd rfl hne⟩
  | @append log log₁ log' files files₁ files' id data now suffix events h hrest ih =>
    obtain ⟨hfree, hfile₁, hentries, hadded⟩ := append_ok h hfile
    obtain ⟨ihentries, ihcontent, ihframe, ihplace⟩ := ih hfile₁
    have hself := FileTree.lookup_append_self hadded
    have hcontent : files₁.contentAt place =
        files.contentAt place ++ Event.lines [⟨id, data⟩] := by
      rw [FileTree.contentAt, hself]
    refine ⟨?_, ?_, fun q hq => ?_, fun _ => ⟨hfree, ?_⟩⟩
    · rw [ihentries, hentries, List.foldl_cons]
    · rw [ihcontent, hcontent, List.append_assoc]
      simp [Event.lines]
    · rw [ihframe q hq, FileTree.lookup_append_ne hadded hq]
    · cases events with
      | nil =>
        rw [hrest.nil.2, hself]
        simp
      | cons e rest => exact (ihplace (List.cons_ne_nil _ _)).2

/-! ## Opening it again -/

/-- Whether the file that keeps the log has nothing but blanks behind its last line feed. -/
def endsLine (log : EventLog) (files : FileTree) : Bool :=
  match log.file with
  | none => true
  | some place => (Json.skipBlanks (FileTree.lastLine (files.contentAt place))).isEmpty

/-- Bytes without a line feed are loaded as one line. -/
theorem loadLine_of_loadLines (hplain : 0x0A ∉ line)
    (h : log.loadLines (FileTree.splitLines line) = .ok log') : log.loadLine line = .ok log' := by
  rw [FileTree.splitLines_plain hplain] at h
  split at h
  · rename_i hnil
    rw [hnil, ← h]
    exact loadLine_encode log ""
  · rw [loadLines] at h
    split at h
    · rename_i hline
      rw [hline, ← h]
      rfl
    · cases h

/-- Behind a line that is not ended the first line that is added goes on with it. -/
theorem splitLines_behind (hplain : 0x0A ∉ line) (he : e.ReadsBack) (rest : List Event) :
    FileTree.splitLines (line ++ Event.lines (e :: rest)) =
      (line ++ Text.encode e.line) :: FileTree.splitLines (Event.lines rest) := by
  have hplain' : 0x0A ∉ line ++ Text.encode e.line := by
    rw [List.mem_append, not_or]
    exact ⟨hplain, he.newline_notMem⟩
  have hclosed : (line ++ Text.encode e.line).getLast? ≠ some 0x0D := by
    rw [Event.encode_line, ← List.cons_append, ← List.append_assoc, List.getLast?_append]
    simp
  rw [Event.lines, List.flatMap_cons, List.append_assoc, List.singleton_append,
    ← List.append_assoc, FileTree.splitLines_line hplain' hclosed]
  rfl

/-- With lines added behind those of a log, its entries are loaded and those that were added, if
the last line was ended; otherwise the first line that was added is none. -/
theorem loadLines_behind {fresh : EventLog} {content : Bytes}
    (hload : fresh.loadLines (FileTree.splitLines content) = .ok log)
    (hreads : ∀ e ∈ events, e.ReadsBack) (hne : events ≠ []) :
    (fresh.loadLines (FileTree.splitLines (content ++ Event.lines events))).map (·.entries) =
      if Json.skipBlanks (FileTree.lastLine content) = [] then
        .ok (events.foldl (fun d e => d.insert e.id e.data) log.entries)
      else .error .json := by
  obtain ⟨hplain, front, hcontent, hfront⟩ := FileTree.exists_lastLine content
  generalize FileTree.lastLine content = last at hplain hcontent ⊢
  subst hcontent
  -- the lines of the front, and then the last one
  rw [hfront, loadLines_append] at hload
  obtain ⟨log₀, hload₀, hlast⟩ : ∃ log₀, fresh.loadLines (FileTree.splitLines front) = .ok log₀ ∧
      log₀.loadLines (FileTree.splitLines last) = .ok log := by
    cases hcase : fresh.loadLines (FileTree.splitLines front) with
    | error e =>
      rw [hcase] at hload
      cases hload
    | ok log₀ =>
      rw [hcase] at hload
      exact ⟨log₀, rfl, hload⟩
  rw [List.append_assoc, hfront, loadLines_append, hload₀]
  simp only [Except.bind]
  have hline := loadLine_of_loadLines hplain hlast
  obtain ⟨e, rest, rfl⟩ := List.exists_cons_of_ne_nil hne
  obtain ⟨he, hrest⟩ := List.forall_mem_cons.mp hreads
  rw [splitLines_behind hplain he rest, loadLines, loadLine_behind hline he]
  by_cases hblank : Json.skipBlanks last = []
  · rw [if_pos hblank, if_pos hblank]
    simp only
    rw [loadLines_lines hrest, Except.map, entries_foldl_loading]
    rfl
  · rw [if_neg hblank, if_neg hblank]
    rfl

/-- A log that is opened again after events were appended holds what it held, if its file had
ended its last line when it was opened first, or if nothing was appended. Otherwise it cannot be
opened any more. -/
theorem reopened_unless_unended (hopen : openFolder files path channel = (.ok log, files₁))
    (happended : Appended log files₁ events log' files') (hreads : ∀ e ∈ events, e.ReadsBack) :
    (openFolder files' path channel').1.map (·.entries) =
      if events = [] ∨ log.endsLine files₁ then .ok log'.entries else .error .json := by
  obtain ⟨root, hmade, hfile, hcases⟩ := openFolder_eq_ok hopen
  have hfresh : (keptAt channel' (root ++ [fileName])).entries =
      (keptAt channel (root ++ [fileName])).entries := rfl
  by_cases hnil : events = []
  · subst hnil
    obtain ⟨rfl, rfl⟩ := happended.nil
    rw [if_pos (Or.inl rfl)]
    rcases hcases with ⟨-, hbarred⟩ | ⟨hname, hplace, hload⟩
    · exact hbarred channel'
    · have hagain := FileTree.makeFolder_again hmade fun q hq => hq
      rw [openFolder_eq hagain hname hplace]
      exact (loadLines_entries _ hfresh _).trans (congrArg (Except.map (·.entries)) hload)
  · obtain ⟨hentries, hcontent, hframe, hadded⟩ := happended.added hfile
    obtain ⟨hfree, hplace'⟩ := hadded hnil
    rcases hcases with ⟨hbarred, -⟩ | ⟨hname, hplace, hload⟩
    · exact absurd hfree hbarred
    · have hagain : files'.makeFolder path = (.ok root, files') := by
        refine FileTree.makeFolder_again hmade fun q hq => ?_
        rw [hframe q fun heq => hplace (heq ▸ hq), hq]
      rw [openFolder_eq hagain hname hplace', hcontent]
      refine (loadLines_entries _ hfresh _).trans ?_
      rw [loadLines_behind hload hreads hnil, hentries]
      simp [hnil, endsLine, hfile]

/-! ## One event -/

/-- A channel to which nobody listens. -/
def unheard : Channel := .broadcast 4 [] true

/-- The first event that a log makes when no clock helps it. -/
def firstEvent : Event := ⟨Event.mintId 1 0, .null⟩

theorem firstEvent_readsBack : firstEvent.ReadsBack := by
  with_unfolding_all rfl

/-- The place of a log in the folder `d`. -/
def placeInD : Path := ["d", fileName]

/-- A tree with the folder `d` alone. -/
def folderD : FileTree := ⟨[(["d"], .folder)]⟩

/-- A new log in the folder `d`, and with one event. -/
def newLog : EventLog := keptAt unheard placeInD

/-- The log with its first event. -/
def grown (log : EventLog) : EventLog :=
  { log.taking 1 firstEvent with channel := .broadcast 4 [firstEvent] true }

/-- The tree with the first event behind what the file of the log held. -/
def grownTree (t : FileTree) : FileTree :=
  t.put placeInD (.file (t.contentAt placeInD ++ Text.encode (firstEvent.line ++ "\n")))

theorem open_newLog : openFolder .empty "d" unheard = (.ok newLog, folderD) := by
  rw [openFolder_eq FileTree.makeFolder_d (by decide +kernel) (by decide +kernel)]
  rfl

theorem newLog_grows : Appended newLog folderD [firstEvent] (grown newLog) (grownTree folderD) := by
  have happend : newLog.append folderD .null 0 0 =
      (.ok firstEvent.id, grown newLog, grownTree folderD) := by
    with_unfolding_all rfl
  exact .append happend (.done _ _)

/-- The first event of a new log is there when the log is opened again. -/
theorem newLog_is_reopened :
    (openFolder (grownTree folderD) "d" unheard).1.map (·.entries) = .ok (grown newLog).entries := by
  have hreads : ∀ e ∈ [firstEvent], e.ReadsBack :=
    List.forall_mem_singleton.mpr firstEvent_readsBack
  rw [reopened_unless_unended open_newLog newLog_grows hreads]
  exact if_pos (Or.inr (by decide))

/-- The folder `d` with a log whose only line has no line feed behind it. -/
def unendedD : FileTree := ⟨[(["d"], .folder), (placeInD,
  .file (Text.encode "\x7b\x22id\x22:\x22a\x22,\x22data\x22:1\x7d"))]⟩

/-- The log of that line. -/
def unendedLog : EventLog :=
  { newLog with entries := Dictionary.empty.insert "a" (.int 1) }

/-- The log is opened and takes an event, and then it cannot be opened any more. -/
theorem unended_is_lost : openFolder unendedD "d" unheard = (.ok unendedLog, unendedD) ∧
    Appended unendedLog unendedD [firstEvent] (grown unendedLog) (grownTree unendedD) ∧
    firstEvent.ReadsBack ∧ (openFolder (grownTree unendedD) "d" unheard).1 = .error .json := by
  have hmade : FileTree.makeFolder unendedD "d" = (.ok ["d"], unendedD) := by
    unfold FileTree.makeFolder
    rw [FileTree.names_d]
    with_unfolding_all rfl
  have hmade' : FileTree.makeFolder (grownTree unendedD) "d" = (.ok ["d"], grownTree unendedD) := by
    unfold FileTree.makeFolder
    rw [FileTree.names_d]
    with_unfolding_all rfl
  have happend : unendedLog.append unendedD .null 0 0 =
      (.ok firstEvent.id, grown unendedLog, grownTree unendedD) := by
    with_unfolding_all rfl
  refine ⟨?_, .append happend (.done _ _), firstEvent_readsBack, ?_⟩
  · rw [openFolder_eq hmade (by decide +kernel) (by decide +kernel)]
    with_unfolding_all rfl
  · rw [openFolder_eq hmade' (by decide +kernel) (by decide +kernel)]
    with_unfolding_all rfl

end EventLog

end FeatureGraph
