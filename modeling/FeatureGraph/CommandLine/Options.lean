-- The options and the commands of the command line, and how its words are
-- read as them.
import FeatureGraph.Codec.Decoder
import FeatureGraph.CommandLine.Words

namespace FeatureGraph.CommandLine

/-! ## What can be asked for -/

/-- Where a document is taken from. -/
inductive DocumentSource where
  | text (content : String)
  | file (path : String)
deriving DecidableEq, Repr

/-- A command. -/
inductive Command where
  /-- Takes a document in, under an id of its own or a random one. -/
  | ingest (source : DocumentSource) (id : Option String)
  /-- Shows a feature of an entity. -/
  | read (id feature : String)
  /-- Lists the ids of the entities. -/
  | ids
  /-- Lists the events after an id, or all, and perhaps goes on to wait for more. -/
  | events (after : Option String) (follow : Bool)
deriving DecidableEq, Repr

/-- What all commands share. -/
structure Options where
  /-- The folder of the store and of the event log. -/
  folder : String
  /-- How many bytes a chunk of a document has. -/
  chunkSize : Nat
deriving DecidableEq, Repr

/-- The options that are not given. -/
def Options.default : Options := ⟨".featureflow", defaultChunkSize⟩

/-! ## Reading the words -/

/-- The value of a decimal digit. -/
def digit? (c : Char) : Option Nat := if c.isDigit then some (c.toNat - 48) else none

/-- A whole number that fits into 64 bits, in decimal digits; a plus sign may stand in
front. -/
def readCount? (text : String) : Option Nat :=
  let digits := match text.toList with
    | '+' :: cs => cs
    | cs => cs
  match digits.mapM digit? with
  | none | some [] => none
  | some (d :: ds) =>
    let n := (d :: ds).foldl (fun n d => n * 10 + d) 0
    if n < Nat.pow 2 64 then some n else none

/-- A path has at least one character. -/
def isPath (text : String) : Bool := text ≠ ""

/-- Any text. -/
def isAny (_ : String) : Bool := true

/-- What stands before the name of a command. -/
def commonShape : Shape :=
  ⟨[("db", isPath), ("chunk-size", fun text => (readCount? text).isSome)], [], none⟩

/-- The commands, with what each takes. -/
def shapes : List (String × Shape) :=
  [("ingest", ⟨[("file", isPath), ("id", isAny)], [], some 1⟩),
   ("read", ⟨[], [], some 2⟩),
   ("ids", ⟨[], [], some 0⟩),
   ("events", ⟨[("after", isAny)], ["follow"], some 0⟩)]

/-- The command of a name, from what it was given. -/
def readCommand (name : String) (g : Given) : Except Misuse Command :=
  match name, g.operands with
  | "ingest", operands =>
    match g.value? "file", operands.head? with
    | some path, none => .ok (.ingest (.file path) (g.value? "id"))
    | none, some text => .ok (.ingest (.text text) (g.value? "id"))
    | some _, some text => .error (.conflict "--file" text)
    | none, none => .error (.missingOperand "TEXT")
  | "read", [id, feature] => .ok (.read id feature)
  | "read", [_] => .error (.missingOperand "FEATURE")
  | "read", _ => .error (.missingOperand "ID")
  | "ids", _ => .ok .ids
  | "events", _ => .ok (.events (g.value? "after") (g.flags.contains "follow"))
  | other, _ => .error (.unknownWord other)

/-- The common options that were given. -/
def readOptions (g : Given) : Options :=
  { folder := (g.value? "db").getD Options.default.folder
    chunkSize := ((g.value? "chunk-size").bind readCount?).getD Options.default.chunkSize }

/-- Reads the words after the command `help`: nothing, or the name of one command. -/
def readHelp : List String → Halt
  | [] => .help
  | [name] =>
    if name = "help" || (shapes.lookup name).isSome then .help
    else .misuse (.unknownWord name)
  | _ :: extra :: _ => .misuse (.unknownWord extra)

/-- Reads the words of a command line: the common options, the name of a command, and what the
command takes. The words of the command are read before the common option in front of its name,
so help with the command is given whatever that option is. -/
def readWords (words : List String) : Except Halt (Options × Command) :=
  match scan commonShape Given.nothing words with
  | .error halt => .error halt
  | .ok common =>
    match common.operands with
    | [] => .error (.misuse (.missingOperand "COMMAND"))
    | name :: rest =>
      if name = "help" then .error (readHelp rest)
      else
        match shapes.lookup name with
        | none => .error (.misuse (.unknownWord name))
        | some shape =>
          match scan shape Given.nothing rest with
          | .error halt => .error halt
          | .ok given =>
            match readCommand name given, common.settle commonShape with
            | .ok command, .ok common => .ok (readOptions common, command)
            | .error m, _ => .error (.misuse m)
            | _, .error halt => .error halt

/-! ## The environment -/

/-- The variable of the environment that sets the folder. -/
def folderVariable : String := "FEATUREFLOW_DB"

/-- The variable of the environment that sets the chunk size. -/
def chunkSizeVariable : String := "FEATUREFLOW_CHUNK_SIZE"

/-- The options with those that the variables of the environment set instead. A chunk size
that is not a number sets nothing. -/
def Options.override (o : Options) (environment : String → Option String) : Options :=
  { folder := (environment folderVariable).getD o.folder
    chunkSize := ((environment chunkSizeVariable).bind readCount?).getD o.chunkSize }

/-- How the command line is used. -/
def usage : String :=
  "Usage: [--db DIR] [--chunk-size BYTES] COMMAND\n"
  ++ "\n"
  ++ "Commands:\n"
  ++ "  ingest TEXT | --file PATH  [--id ID]  take a document in, and print its id\n"
  ++ "  read ID FEATURE                       print one feature of an entity\n"
  ++ "  ids                                   list the ids of the entities\n"
  ++ "  events [--after ID] [--follow]        print the events of the log\n"
  ++ "  help                                  print this text\n"
  ++ "\n"
  ++ "FEATUREFLOW_DB and FEATUREFLOW_CHUNK_SIZE, when they are set, stand over the options.\n"

end FeatureGraph.CommandLine
