-- A tree of files and folders below one working folder, and how a path finds
-- its way through it.
import FeatureGraph.ByteSource
import FeatureGraph.Text.Utf8

namespace FeatureGraph

/-- A place in the tree: the names from the working folder down. -/
abbrev Path := List String

/-- What stands at a place. -/
inductive FileEntry where
  | file (content : Bytes)
  | folder
deriving DecidableEq, Repr

/-- A tree of files and folders. The working folder, the folders above it and the root are
always there. -/
structure FileTree where
  entries : List (Path × FileEntry)

namespace FileTree

/-- The tree of an empty working folder. -/
def empty : FileTree := ⟨[]⟩

/-- Whether a place is the working folder or one above it. -/
def isAbove (p : Path) : Bool := p.all (· = "..")

/-- What stands at a place. -/
def lookup (t : FileTree) (p : Path) : Option FileEntry :=
  if isAbove p || p = ["/"] then some .folder else t.entries.lookup p

/-- Puts a file or a folder at a place, instead of what stood there. -/
def put (t : FileTree) (p : Path) (e : FileEntry) : FileTree :=
  ⟨(p, e) :: t.entries.filter (·.1 ≠ p)⟩

/-- Whether a file stands at a place. -/
def isFile (t : FileTree) (p : Path) : Bool :=
  match t.lookup p with
  | some (.file _) => true
  | _ => false

/-- The names of the files that stand directly within a folder. -/
def fileNames (t : FileTree) (folder : Path) : List String :=
  t.entries.filterMap fun
    | (p, .file _) =>
      match p.getLast? with
      | some name => if p = folder ++ [name] then some name else none
      | none => none
    | (_, .folder) => none

/-! ## Names and paths -/

/-- How many bytes the name of a file may have. -/
def longestName : Nat := 255

/-- How many bytes the text of a path may have. -/
def longestPath : Nat := 4095

/-- Why a text cannot name a file, if it cannot: it has a NUL in it, or more bytes than it
may have. -/
def textFault? (limit : Nat) (text : String) : Option IoError :=
  if text.toList.contains '\x00' then some .nulInName
  else if text.utf8ByteSize > limit then some .nameTooLong
  else none

/-- How many bytes the name of a file may have in the folder that a path names: the path of
the file is a path, too. -/
def roomIn (folder : String) : Nat := min longestName (longestPath - (folder.utf8ByteSize + 1))

/-- One step down or up. The parent of the working folder is a place named by two dots, and
the root is its own parent. -/
def step (p : Path) (name : String) : Path :=
  if name = "." then p
  else if name = ".." then
    if p = ["/"] then p else if isAbove p then p ++ [".."] else p.dropLast
  else p ++ [name]

/-- Goes down the names from a place; every place that is left has to be a folder. -/
def walk (t : FileTree) (p : Path) : List String → Except IoError Path
  | [] => .ok p
  | name :: rest =>
    match t.lookup p with
    | some .folder =>
      match textFault? longestName name with
      | some e => .error e
      | none => walk t (step p name) rest
    | some (.file _) => .error .notFolder
    | none => .error .notFound

/-- The names in the text of a path. A path from the root begins with a slash. -/
def names (text : String) : List String :=
  let parts := (text.splitOn "/").filter (· ≠ "")
  if text.startsWith "/" then "/" :: parts else parts

/-- The place that the text of a path leads to; nothing has to stand there. The empty text
leads to the working folder. -/
def resolve (t : FileTree) (text : String) : Except IoError Path :=
  match textFault? longestPath text with
  | some e => .error e
  | none =>
    match t.walk [] (names text) with
    | .error e => .error e
    | .ok p =>
      if text.endsWith "/" && t.isFile p then .error .notFolder else .ok p

/-! ## Reading and writing -/

/-- A file as a source of bytes. A folder can be opened, but a read of it fails. -/
def openFile (t : FileTree) (p : Path) : Except IoError ByteSource :=
  match t.lookup p with
  | some (.file content) => .ok (ByteSource.ofBytes content)
  | some .folder => .ok (ByteSource.failing .isFolder)
  | none => .error .notFound

/-- Opens the file that the text of a path names. -/
def openText (t : FileTree) (text : String) : Except IoError ByteSource :=
  match t.resolve text with
  | .ok p => t.openFile p
  | .error e => .error e

/-- Why a file cannot be given a name of at most `room` bytes, if it cannot. -/
def renameFault? (room : Nat) (name : String) : Option IoError :=
  if name.toList.contains '\x00' then some .invalidArgument else textFault? room name

/-- Gives a finished file its name in a folder, instead of a file that had it. -/
def replaceFile (t : FileTree) (folder : Path) (room : Nat) (name : String) (content : Bytes) :
    Except IoError FileTree :=
  match renameFault? room name, t.lookup (folder ++ [name]) with
  | some e, _ => .error e
  | none, some .folder => .error .isFolder
  | none, _ => .ok (t.put (folder ++ [name]) (.file content))

/-- Adds bytes to the end of a file, and makes the file first if there is none. -/
def append (t : FileTree) (p : Path) (more : Bytes) : Except IoError FileTree :=
  match t.lookup p with
  | some .folder => .error .isFolder
  | some (.file content) => .ok (t.put p (.file (content ++ more)))
  | none =>
    match t.lookup p.dropLast with
    | some .folder => .ok (t.put p (.file more))
    | some (.file _) => .error .notFolder
    | none => .error .notFound

/-- Makes the folders down the names from a place, as far as they are missing. The first name
that cannot be that of a folder ends it; the folders made until then stay. -/
def makeFolders (t : FileTree) (p : Path) : List String → Except IoError Path × FileTree
  | [] => (.ok p, t)
  | name :: rest =>
    let next := step p name
    match textFault? longestName name, t.lookup next with
    | some e, _ => (.error e, t)
    | none, some .folder => makeFolders t next rest
    | none, some (.file _) => (.error .alreadyExists, t)
    | none, none => makeFolders (t.put next .folder) next rest

/-- Makes the folder that the text of a path names, and gives its place. Folders on the way are
made as well, unless the way is barred by something else than a missing folder. -/
def makeFolder (t : FileTree) (text : String) : Except IoError Path × FileTree :=
  match textFault? longestPath text with
  | some e => (.error e, t)
  | none =>
    match t.walk [] (names text) with
    | .ok _ | .error .notFound => t.makeFolders [] (names text)
    | .error e => (.error e, t)

/-- The lines from here on; `line` is what is read of the present one, in reverse. A line
feed ends a line, and so does a carriage return before it. -/
def linesFrom (line : Bytes) : Bytes → List Bytes
  | [] => if line.isEmpty then [] else [line.reverse]
  | b :: rest =>
    if b = 0x0A then
      (if line.head? = some 0x0D then line.tail else line).reverse :: linesFrom [] rest
    else linesFrom (b :: line) rest

/-- The lines of a text file, without their ends. -/
def splitLines (bs : Bytes) : List Bytes := linesFrom [] bs

end FileTree

end FeatureGraph
