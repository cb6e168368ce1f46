-- Runs of the commands on the files below a working folder. A run gives what
-- is printed, what went wrong, and the files after it.
import FeatureGraph.CommandLine.Options
import FeatureGraph.Component.ByteStream
import FeatureGraph.Component.Tokenizer
import FeatureGraph.Component.WordCount
import FeatureGraph.Schema.Entity

namespace FeatureGraph.CommandLine

/-! ## Documents -/

/-- The features of a document: its bytes and the counts of its words, which are stored, and
the words between them, which are not. -/
def documentFeatures (chunkSize : Nat) : List Feature :=
  [{ Feature.new "stream" (.byteStream chunkSize) with isStored := true },
   { Feature.new "words" .tokenizer with needs := ["stream"] },
   { (Feature.new "count" Component.wordCount.aggregator).asDocument .counts with
     needs := ["words"], isStored := true }]

/-- The schema of documents. -/
def documents (chunkSize : Nat) (ids : IdSource) : Except SchemaError Schema :=
  Schema.build "document" (.delimited defaultSeparator) ids (documentFeatures chunkSize)

/-- How the value of a feature is printed. -/
def printed : Payload → String
  | .counts table => Json.printSpread (Json.ofCounts table)
  | .bytes bs => Text.decodeLossy bs
  | .text s => s
  | _ => ""

/-! ## Runs -/

/-- What a run comes to: what it prints, or why it fails. -/
abbrev Outcome := Except String String

/-- A path within a folder; the folder without a name is the working folder. -/
def pathWithin (folder name : String) : String :=
  if folder = "" || folder.endsWith "/" then folder ++ name else folder ++ "/" ++ name

/-- Opens the log of a folder. -/
def openLog (folder : String) (files : FileTree) : Except String EventLog × FileTree :=
  let channel := Channel.new Channel.defaultCapacity
  let (log, files) := EventLog.openFolder files (pathWithin folder "events") channel
  (log.mapError (·.message), files)

/-- Opens the store and then the log of a folder. -/
def openWorkspace (folder : String) (files : FileTree) (supply : Supply) :
    Except String Workspace × FileTree :=
  match Store.openFolder files (pathWithin folder "store") with
  | (.error e, files) => (.error e.message, files)
  | (.ok store, files) =>
    match openLog folder files with
    | (.error e, files) => (.error e, files)
    | (.ok log, files) =>
      (.ok { Workspace.new files store supply with log := some log }, files)

/-- Opens what a command needs, and goes on with it. -/
def withDocuments (o : Options) (ids : IdSource) (files : FileTree) (supply : Supply)
    (work : Schema → Workspace → Outcome × Workspace) : Outcome × FileTree :=
  match openWorkspace o.folder files supply with
  | (.error e, files) => (.error e, files)
  | (.ok w, files) =>
    match documents o.chunkSize ids with
    | .error e => (.error e.message, files)
    | .ok schema =>
      let (outcome, w) := work schema w
      (outcome, w.files)

/-- The payload of a document. -/
def DocumentSource.payload : DocumentSource → Payload
  | .text content => .text content
  | .file path => .path path

/-- The inputs for a document that may have an id of its own. -/
def documentInputs (source : DocumentSource) (id : Option String) : Inputs :=
  Dictionary.ofList (("stream", source.payload) :: id.toList.map fun id => ("id", .text id))

/-- Each line with its end. -/
def lines (l : List String) : String := String.join (l.map (· ++ "\n"))

/-- The words for a feature that could not be read. -/
def readFailure (id feature : String) (e : Failure) : String :=
  if e.isUnavailable then s!"{feature} is not available for {id}: {e.message}" else e.message

/-- Runs a command. -/
def run (o : Options) (files : FileTree) (supply : Supply) : Command → Outcome × FileTree
  | .ingest source id =>
    let ids : IdSource := if id.isSome then .input "id" else .random
    withDocuments o ids files supply fun schema w =>
      let (result, w) := schema.process (documentInputs source id) w
      ((result.map (· ++ "\n")).mapError (·.message), w)
  | .read id feature =>
    withDocuments o .random files supply fun schema w =>
      let (result, w) := schema.read w id feature
      ((result.map (printed · ++ "\n")).mapError (readFailure id feature), w)
  | .ids =>
    withDocuments o .random files supply fun schema w => (.ok (lines (schema.entities w)), w)
  | .events after _ =>
    match openLog o.folder files with
    | (.error e, files) => (.error e, files)
    | (.ok log, files) =>
      (.ok (lines ((log.since after).map fun e => e.id ++ " " ++ e.data.print)), files)

/-! ## Reports -/

/-- What a run reports: its output, its complaints, and its exit code. -/
structure Report where
  output : String
  complaint : String
  code : Nat
deriving DecidableEq, Repr

/-- The report of a finished run. -/
def Report.ofOutcome : Outcome → Report
  | .ok output => ⟨output, "", 0⟩
  | .error e => ⟨"", s!"Error: {e}\n", 1⟩

/-- The report on words that are not a command: help that was asked for, or what is wrong. -/
def Report.ofHalt : Halt → Report
  | .help => ⟨usage, "", 0⟩
  | .misuse m => ⟨"", s!"error: {m.message}\n\n{usage}", 2⟩

/-- Reads the words of a command line and runs the command. -/
def execute (words : List String) (environment : String → Option String) (files : FileTree)
    (supply : Supply) : Report × FileTree :=
  match readWords words with
  | .error halt => (Report.ofHalt halt, files)
  | .ok (o, command) =>
    let (outcome, files) := run (o.override environment) files supply command
    (Report.ofOutcome outcome, files)

end FeatureGraph.CommandLine
