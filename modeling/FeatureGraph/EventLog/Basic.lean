-- The event log. Events are only added, each under an id greater than all
-- before it, and a log may be kept in a file, one event on a line.
import FeatureGraph.EventLog.Channel
import FeatureGraph.Files.Tree
import FeatureGraph.Text.Blank

namespace FeatureGraph

/-- An event log. -/
structure EventLog where
  entries : Dictionary Json
  /-- The greatest time stamp so far. -/
  lastStamp : Nat
  /-- The file that keeps the log. -/
  file : Option Path
  channel : Channel
  /-- Why the file can never be opened, if its path is too long. -/
  barred : Option IoError

namespace EventLog

/-- The name of the file that keeps a log, within the folder of the log. -/
def fileName : String := "events.jsonl"

/-- An empty log that no file keeps. -/
def inMemory (channel : Channel) : EventLog := ⟨Dictionary.empty, 0, none, channel, none⟩

/-! ## Opening a log -/

/-- Takes in one line of the file; a blank line holds nothing. -/
def loadLine (log : EventLog) (line : Bytes) : Except EventLogError EventLog :=
  match Text.decode? line with
  | none => .error (.io .notText)
  | some text =>
    if Text.isBlankLine text then .ok log
    else
      match Event.parse? line with
      | none => .error .json
      | some e =>
        .ok { log with
          lastStamp := max log.lastStamp (Event.stampOf e.id)
          entries := log.entries.insert e.id e.data }

/-- Takes in the lines of the file in order, up to the first that cannot be read. -/
def loadLines (log : EventLog) : List Bytes → Except EventLogError EventLog
  | [] => .ok log
  | line :: rest =>
    match log.loadLine line with
    | .ok log => loadLines log rest
    | .error e => .error e

/-- Opens the log that is kept in a folder, and makes the folder if it is missing. -/
def openFolder (files : FileTree) (path : String) (channel : Channel) :
    Except EventLogError EventLog × FileTree :=
  match files.makeFolder path with
  | (.error e, files) => (.error (.io e), files)
  | (.ok root, files) =>
    let place := root ++ [fileName]
    let fresh := { inMemory channel with file := some place }
    match FileTree.textFault? (FileTree.roomIn path) fileName, files.lookup place with
    | some e, _ => (.ok { fresh with barred := some e }, files)
    | none, none => (.ok fresh, files)
    | none, some .folder => (.error (.io .isFolder), files)
    | none, some (.file content) => (fresh.loadLines (FileTree.splitLines content), files)

/-! ## Adding an event -/

/-- The stamp of the next event: the time now in microseconds, but later than the last. -/
def nextStamp (log : EventLog) (now : Int) : Nat := max now.toNat (log.lastStamp + 1)

/-- Adds bytes to the end of the log's file. -/
def write (log : EventLog) (files : FileTree) (place : Path) (more : Bytes) :
    Except IoError FileTree :=
  match log.barred with
  | some e => .error e
  | none => files.append place more

/-- Stores an event under a new id, first in the file and then in memory. Whether or not the
file takes it, its stamp is used up. -/
def store (log : EventLog) (files : FileTree) (data : Json) (now : Int) (suffix : Nat) :
    Except EventLogError Event × EventLog × FileTree :=
  let stamp := log.nextStamp now
  let event : Event := ⟨Event.mintId stamp suffix, data⟩
  let stamped := { log with lastStamp := stamp }
  let kept := { stamped with entries := log.entries.insert event.id data }
  match log.file with
  | none => (.ok event, kept, files)
  | some place =>
    match log.write files place (Text.encode (event.line ++ "\n")) with
    | .ok files => (.ok event, kept, files)
    | .error e => (.error (.io e), stamped, files)

/-- Sends a stored event to all who listen. -/
def publish (log : EventLog) (event : Event) : Except EventLogError EventLog :=
  match log.channel.publish event with
  | .ok channel => .ok { log with channel := channel }
  | .error e => .error e

/-- Stores an event and sends it; gives its id. If it cannot be sent it stays stored. -/
def append (log : EventLog) (files : FileTree) (data : Json) (now : Int) (suffix : Nat) :
    Except EventLogError String × EventLog × FileTree :=
  match log.store files data now suffix with
  | (.error e, log, files) => (.error e, log, files)
  | (.ok event, log, files) =>
    match log.publish event with
    | .ok log => (.ok event.id, log, files)
    | .error e => (.error e, log, files)

/-! ## Reading the log -/

/-- The data of the event under an id. -/
def get? (log : EventLog) (id : String) : Option Json := log.entries.get? id

/-- The events after an id, or all, in the order of their ids. -/
def since (log : EventLog) (after : Option String) : List Event :=
  (log.entries.toList.filter fun e =>
    match after with
    | none => true
    | some id => id < e.1).map fun e => ⟨e.1, e.2⟩

end EventLog

end FeatureGraph
