-- The program: it takes in the files that a command needs from the disk, runs
-- the command, and writes back the files that have changed.
import FeatureGraph.CommandLine.Run
import Std.Time.DateTime.Timestamp

namespace FeatureGraph.CommandLine

/-! ## The disk -/

/-- What stands at a path on the disk. -/
def entryAt (disk : String) : IO (Option FileEntry) := do
  let here := (← IO.currentDir) / disk
  if ← here.isDir then return some .folder
  if ← here.pathExists then return some (.file (← IO.FS.readBinFile here).toList)
  return none

/-- Takes in what stands at a path on the disk. -/
def loadEntry (t : FileTree) (place : Path) (disk : String) : IO FileTree := do
  match ← entryAt disk with
  | some e => return t.put place e
  | none => return t

/-- Takes in what stands on the disk along the names of a path. Gives the place at its end, and
where that is on the disk. -/
def loadAlong (t : FileTree) (place : Path) (disk : String) :
    List String → IO (FileTree × Path × String)
  | [] => return (t, place, disk)
  | name :: rest => do
    let place := FileTree.step place name
    let disk := if name = "/" then "" else disk ++ "/" ++ name
    let t ← loadEntry t place (if disk = "" then "/" else disk)
    loadAlong t place disk rest

/-- Takes in what stands on the disk along a path, and directly within the folder at its
end. -/
def loadPath (t : FileTree) (path : String) : IO FileTree := do
  let (t, place, disk) ← loadAlong t [] "." (FileTree.names path)
  match t.lookup place with
  | some .folder =>
    let found ← ((← IO.currentDir) / disk).readDir
    found.foldlM (fun t e => loadEntry t (place ++ [e.fileName]) (disk ++ "/" ++ e.fileName)) t
  | _ => return t

/-- Takes in what a command may read. -/
def loadFor (o : Options) (command : Command) : IO FileTree := do
  let t ← loadPath FileTree.empty (pathWithin o.folder "store")
  let t ← loadPath t (pathWithin o.folder "events")
  match command with
  | .ingest (.file path) _ => return (← loadAlong t [] "." (FileTree.names path)).1
  | _ => return t

/-- Where a place is on the disk. -/
def diskPath : Path → String
  | "/" :: rest => "/" ++ "/".intercalate rest
  | place => "./" ++ "/".intercalate place

/-- Writes the files and the folders that have changed, in the order they were put. -/
def save (before after : FileTree) : IO Unit :=
  after.entries.reverse.forM fun (place, entry) => do
    unless before.lookup place = some entry do
      match entry with
      | .folder => IO.FS.createDirAll (diskPath place)
      | .file content => IO.FS.writeBinFile (diskPath place) ⟨content.toArray⟩

/-! ## Time and chance -/

/-- More random numbers than a command draws. -/
def drawsPerRun : Nat := 16

/-- A supply that begins now. -/
def freshSupply : IO Supply := do
  let now ← Std.Time.Timestamp.now
  let micros := now.toNanosecondsSinceUnixEpoch.val / 1000
  let bytes ← IO.getRandomBytes (8 * drawsPerRun).toUSize
  let numbers := (Bytes.pieces 8 bytes.toList).map Bytes.toNat
  return ⟨fun i => micros + i, fun i => numbers.getD i 0, 0, 0⟩

end FeatureGraph.CommandLine

open FeatureGraph.CommandLine in
/-- Reads the words of the command line, and does what they ask for. -/
def main (words : List String) : IO UInt32 := do
  let folder ← IO.getEnv folderVariable
  let chunkSize ← IO.getEnv chunkSizeVariable
  let environment (name : String) : Option String :=
    if name = folderVariable then folder else if name = chunkSizeVariable then chunkSize else none
  let report ← match readWords words with
    | .error halt => pure (Report.ofHalt halt)
    | .ok (o, command) => do
      let o := o.override environment
      let files ← loadFor o command
      let (outcome, after) := run o files (← freshSupply) command
      save files after
      pure (Report.ofOutcome outcome)
  IO.print report.output
  IO.eprint report.complaint
  match readWords words, report.code with
  | .ok (_, .events _ true), 0 => repeat IO.sleep 1000
  | _, _ => pure ()
  return report.code.toUInt32
