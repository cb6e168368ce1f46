-- The words of a command line: options with and without values, and
-- operands. A word after two hyphens alone is an operand, whatever it looks
-- like.

namespace FeatureGraph.CommandLine

/-- A word by its form. -/
inductive Word where
  /-- `--name` or `--name=value`. -/
  | option (name : String) (value : Option String)
  /-- Letters after one hyphen. -/
  | letters (text : String)
  /-- Two hyphens: only operands follow. -/
  | onlyOperands
  /-- Any other word, and also one hyphen alone. -/
  | plain (text : String)
deriving DecidableEq, Repr

/-- The name and the value of an option, from the characters after its hyphens. -/
def Word.ofOption (cs : List Char) : Word :=
  let name := String.ofList (cs.takeWhile (· ≠ '='))
  match cs.dropWhile (· ≠ '=') with
  | [] => .option name none
  | _ :: value => .option name (some (String.ofList value))

/-- The form of a word. -/
def Word.of (text : String) : Word :=
  match text.toList with
  | ['-', '-'] => .onlyOperands
  | '-' :: '-' :: cs => .ofOption cs
  | '-' :: c :: cs => .letters (String.ofList (c :: cs))
  | _ => .plain text

/-- What is wrong with a command line. -/
inductive Misuse where
  | unknownWord (word : String)
  | missingValue (option : String)
  | badValue (option value : String)
  | repeated (option : String)
  | missingOperand (name : String)
  /-- Two things were given of which there can be one. -/
  | conflict (first second : String)
deriving DecidableEq, Repr

/-- The words of a misuse. -/
def Misuse.message : Misuse → String
  | .unknownWord word => s!"unexpected argument '{word}'"
  | .missingValue option => s!"the option '--{option}' needs a value"
  | .badValue option value => s!"invalid value '{value}' for the option '--{option}'"
  | .repeated option => s!"the option '--{option}' was given twice"
  | .missingOperand name => s!"the argument {name} is missing"
  | .conflict first second => s!"'{first}' cannot be used with '{second}'"

/-- Why the words are not gone through to the end. -/
inductive Halt where
  | help
  | misuse (m : Misuse)
deriving DecidableEq, Repr

/-- What a command takes. -/
structure Shape where
  /-- The options with a value, each with the values that it takes. -/
  valued : List (String × (String → Bool))
  /-- The options without a value. -/
  flags : List String
  /-- The most operands there may be. Without a bound, the first operand ends the options, and
  what follows it belongs to another command. -/
  operands : Option Nat

namespace Shape

/-- Whether an option takes a value. -/
def fits (shape : Shape) (option value : String) : Bool :=
  (shape.valued.lookup option).any (· value)

/-- Whether a word is the first of another command. -/
def endsAt (shape : Shape) : Word → Bool
  | .plain _ => shape.operands.isNone
  | _ => false

end Shape

/-- What a command was given. -/
structure Given where
  values : List (String × String)
  flags : List String
  operands : List String
  /-- The last option whose value is a word of its own. The value is looked at when the next
  word of the command is there, or when there are no more words; what comes after the name of
  another command is gone through before that. -/
  waiting : Option (String × String)
deriving DecidableEq, Repr

namespace Given

/-- Nothing was given. -/
def nothing : Given := ⟨[], [], [], none⟩

/-- The value of an option. -/
def value? (g : Given) (option : String) : Option String := g.values.lookup option

/-- Takes in the value of an option. -/
def setValue (shape : Shape) (g : Given) (option value : String) : Except Halt Given :=
  if !shape.fits option value then .error (.misuse (.badValue option value))
  else if (g.value? option).isSome then .error (.misuse (.repeated option))
  else .ok { g with values := (option, value) :: g.values }

/-- Takes in the value that waits. -/
def settle (shape : Shape) (g : Given) : Except Halt Given :=
  match g.waiting with
  | some (option, value) => { g with waiting := none }.setValue shape option value
  | none => .ok g

/-- Takes in an option without a value. -/
def setFlag (g : Given) (option : String) : Except Halt Given :=
  if option ∈ g.flags then .error (.misuse (.repeated option))
  else .ok { g with flags := option :: g.flags }

/-- Takes in an operand, if there may be one more. -/
def addOperand (shape : Shape) (g : Given) (text : String) : Except Halt Given :=
  if shape.operands.any (g.operands.length < ·) then
    .ok { g with operands := g.operands ++ [text] }
  else .error (.misuse (.unknownWord text))

end Given

/-- Goes through the words of a command, after what is given already. Help that is asked for
before anything is wrong is given. Where another command begins, a value may still wait. -/
def scan (shape : Shape) (given : Given) : List String → Except Halt Given
  | [] => given.settle shape
  | word :: rest =>
    if shape.endsAt (Word.of word) then .ok { given with operands := word :: rest }
    else
      match given.settle shape with
      | .error halt => .error halt
      | .ok given =>
        match Word.of word with
        | .plain text =>
          match given.addOperand shape text with
          | .ok given => scan shape given rest
          | .error halt => .error halt
        | .onlyOperands => rest.foldlM (Given.addOperand shape) given
        | .letters text =>
          if text.startsWith "h" then .error .help else .error (.misuse (.unknownWord word))
        | .option name value =>
          match shape.valued.lookup name, value with
          | some _, some value =>
            match given.setValue shape name value with
            | .ok given => scan shape given rest
            | .error halt => .error halt
          | some _, none =>
            match rest with
            | [] => .error (.misuse (.missingValue name))
            | next :: rest =>
              match Word.of next with
              | .plain value => scan shape { given with waiting := some (name, value) } rest
              | _ => .error (.misuse (.missingValue name))
          | none, none =>
            if name = "help" then .error .help
            else if name ∈ shape.flags then
              match given.setFlag name with
              | .ok given => scan shape given rest
              | .error halt => .error halt
            else .error (.misuse (.unknownWord word))
          | none, some _ => .error (.misuse (.unknownWord word))

end FeatureGraph.CommandLine
