-- The grammar of JSON over bytes. Every reader gives what it read and the
-- bytes after it, or refuses. Documents may nest only to a limit. Text that
-- is only passed over is held to less than text that is kept.
import FeatureGraph.Json.Basic
import FeatureGraph.Json.Magnitude
import FeatureGraph.Text.Utf8

namespace FeatureGraph.Json

/-- A reader at the front of the bytes. -/
abbrev Scan (α : Type) := Bytes → Option (α × Bytes)

/-! ## Blanks and words -/

/-- Space, tab, line feed and carriage return. -/
def isBlank (b : UInt8) : Bool := b = 0x20 || b = 0x09 || b = 0x0A || b = 0x0D

def skipBlanks (bs : Bytes) : Bytes := bs.dropWhile isBlank

/-- Reads exactly these bytes. -/
def exactly (word : Bytes) : Scan Unit := fun bs =>
  if word.isPrefixOf bs then some ((), bs.drop word.length) else none

/-! ## Numbers -/

/-- A number as it is written. -/
structure Numeral where
  negative : Bool
  whole : Bytes
  fraction : Bytes
  /-- Whether the exponent is negative, and its digits. -/
  exponent : Option (Bool × Bytes)

def isDigit (b : UInt8) : Bool := 0x30 ≤ b && b ≤ 0x39

/-- One digit or more. -/
def digits : Scan Bytes := fun bs =>
  match bs.takeWhile isDigit with
  | [] => none
  | d :: ds => some (d :: ds, bs.dropWhile isDigit)

/-- The digits before the point; only zero itself begins with a zero. -/
def wholeDigits : Scan Bytes := fun bs =>
  match digits bs with
  | some (d :: e :: ds, rest) => if d = 0x30 then none else some (d :: e :: ds, rest)
  | other => other

/-- The digits after a point, or none without one. -/
def fractionDigits : Scan Bytes := fun bs =>
  match bs with
  | b :: rest => if b = 0x2E then digits rest else some ([], bs)
  | [] => some ([], bs)

/-- Takes a sign off the front, and says whether it is a minus sign. -/
def takeSign (bs : Bytes) : Bool × Bytes :=
  match bs with
  | b :: rest => if b = 0x2D then (true, rest) else if b = 0x2B then (false, rest) else (false, bs)
  | [] => (false, bs)

/-- The sign and the digits of an exponent, if there is one. -/
def exponentDigits : Scan (Option (Bool × Bytes)) := fun bs =>
  match bs with
  | b :: rest =>
    if b = 0x65 || b = 0x45 then
      let (negative, rest) := takeSign rest
      (digits rest).map fun (ds, rest) => (some (negative, ds), rest)
    else some (none, bs)
  | [] => some (none, bs)

/-- A number. -/
def numeral : Scan Numeral := fun bs =>
  let (negative, bs) :=
    match bs with
    | b :: rest => if b = 0x2D then (true, rest) else (false, bs)
    | [] => (false, bs)
  match wholeDigits bs with
  | none => none
  | some (whole, bs) =>
    match fractionDigits bs with
    | none => none
    | some (fraction, bs) =>
      (exponentDigits bs).map fun (exponent, bs) => (⟨negative, whole, fraction, exponent⟩, bs)

/-- The characters of a number. -/
def Numeral.literal (n : Numeral) : String :=
  let text (bs : Bytes) : String := String.ofList (bs.map fun b => Char.ofNat b.toNat)
  (if n.negative then "-" else "") ++ text n.whole
    ++ (if n.fraction.isEmpty then "" else "." ++ text n.fraction)
    ++ match n.exponent with
      | none => ""
      | some (negative, ds) => (if negative then "e-" else "e") ++ text ds

/-- The exponent that a number is written with. -/
def Numeral.power (n : Numeral) : Int :=
  match n.exponent with
  | none => 0
  | some (negative, ds) => if negative then -(digitsValue ds : Int) else digitsValue ds

/-- The number as a document, unless it lies beyond what a double can hold. A whole number
that does not fit into 64 bits, and a negative zero, are decimals. -/
def Numeral.toJson? (n : Numeral) : Option Json :=
  let m := digitsValue n.whole
  if n.fraction.isEmpty && n.exponent.isNone && !n.negative && m < Nat.pow 2 64 then some (.int m)
  else if n.fraction.isEmpty && n.exponent.isNone && n.negative && m ≠ 0 && m ≤ Nat.pow 2 63 then
    some (.int (-m))
  else if isFiniteDecimal n.whole n.fraction n.power then some (.decimal n.literal)
  else none

/-! ## Strings -/

/-- The value of a hexadecimal digit. -/
def hexDigit? (b : UInt8) : Option Nat :=
  if 0x30 ≤ b && b ≤ 0x39 then some (b.toNat - 0x30)
  else if 0x61 ≤ b && b ≤ 0x66 then some (b.toNat - 0x57)
  else if 0x41 ≤ b && b ≤ 0x46 then some (b.toNat - 0x37)
  else none

/-- Four hexadecimal digits. -/
def hexQuad : Scan Nat := fun bs =>
  match bs with
  | a :: b :: c :: d :: rest =>
    match hexDigit? a, hexDigit? b, hexDigit? c, hexDigit? d with
    | some a, some b, some c, some d => some (((a * 16 + b) * 16 + c) * 16 + d, rest)
    | _, _, _, _ => none
  | _ => none

/-- A character by its number: one group of digits, or two that are a pair of surrogates. -/
def numberedChar : Scan Char := fun bs =>
  match hexQuad bs with
  | none => none
  | some (n, rest) =>
    if 0xDC00 ≤ n && n ≤ 0xDFFF then none
    else if 0xD800 ≤ n && n ≤ 0xDBFF then
      match rest with
      | b :: u :: more =>
        if b = 0x5C && u = 0x75 then
          match hexQuad more with
          | some (m, rest) =>
            if 0xDC00 ≤ m && m ≤ 0xDFFF then
              some (Char.ofNat (0x10000 + (n - 0xD800) * 0x400 + (m - 0xDC00)), rest)
            else none
          | none => none
        else none
      | _ => none
    else some (Char.ofNat n, rest)

/-- The byte that stands for a letter after a backslash. -/
def escapedByte? (b : UInt8) : Option UInt8 :=
  if b = 0x22 || b = 0x5C || b = 0x2F then some b
  else if b = 0x62 then some 0x08
  else if b = 0x66 then some 0x0C
  else if b = 0x6E then some 0x0A
  else if b = 0x72 then some 0x0D
  else if b = 0x74 then some 0x09
  else none

/-- What follows a backslash: the bytes that it stands for. -/
def escape : Scan Bytes := fun bs =>
  match bs with
  | [] => none
  | b :: rest =>
    if b = 0x75 then (numberedChar rest).map fun (c, rest) => (String.utf8EncodeChar c, rest)
    else (escapedByte? b).map fun e => ([e], rest)

/-- What follows a backslash in text that is passed over; the number of a character may be
any. -/
def escapeShape : Scan Bytes := fun bs =>
  match bs with
  | [] => none
  | b :: rest =>
    if b = 0x75 then (hexQuad rest).map fun (_, rest) => ([], rest)
    else (escapedByte? b).map fun e => ([e], rest)

/-- The bytes of a string up to its closing quote, after those in `done`, which stand in
reverse. Controls are refused. There are at most as many steps as `fuel` has bytes, and the
bytes that are read are themselves enough. -/
def stringBody (escape : Scan Bytes) : (fuel : Bytes) → (done : Bytes) → Scan Bytes
  | [], _, _ => none
  | _ :: _, _, [] => none
  | _ :: fuel, done, b :: rest =>
    if b = 0x22 then some (done.reverse, rest)
    else if b = 0x5C then
      match escape rest with
      | none => none
      | some (out, rest) => stringBody escape fuel (out.reverse ++ done) rest
    else if b < 0x20 then none
    else stringBody escape fuel (b :: done) rest

/-- A string that is kept, after its opening quote: its bytes have to be UTF-8. -/
def keptString : Scan String := fun bs =>
  match stringBody escape bs [] bs with
  | none => none
  | some (raw, rest) => (Text.decode? raw).map fun s => (s, rest)

/-- A string that is passed over, after its opening quote. -/
def passedString : Scan String := fun bs =>
  (stringBody escapeShape bs [] bs).map fun (_, rest) => ("", rest)

/-! ## Documents -/

/-- How the leaves of a document are read. -/
structure Lexis where
  string : Scan String
  number : Numeral → Option Json

/-- Leaves that are kept. -/
def kept : Lexis := ⟨keptString, Numeral.toJson?⟩

/-- Leaves that are passed over. -/
def passed : Lexis := ⟨passedString, fun _ => some .null⟩

/-- A document that is neither an array nor an object. -/
def scalar (lexis : Lexis) : Scan Json := fun bs =>
  match bs with
  | [] => none
  | b :: rest =>
    if b = 0x22 then (lexis.string rest).map fun (s, rest) => (.string s, rest)
    else if b = 0x6E then (exactly [0x75, 0x6C, 0x6C] rest).map fun (_, rest) => (.null, rest)
    else if b = 0x74 then
      (exactly [0x72, 0x75, 0x65] rest).map fun (_, rest) => (.bool true, rest)
    else if b = 0x66 then
      (exactly [0x61, 0x6C, 0x73, 0x65] rest).map fun (_, rest) => (.bool false, rest)
    else
      match numeral bs with
      | none => none
      | some (n, rest) => (lexis.number n).map fun j => (j, rest)

/-- The items of an array from the next one on, after those in `done`, which stand in
reverse. -/
def itemsFrom (item : Scan Json) : (fuel : Bytes) → (done : List Json) → Scan (List Json)
  | [], _, _ => none
  | _ :: fuel, done, bs =>
    match item bs with
    | none => none
    | some (j, rest) =>
      match skipBlanks rest with
      | [] => none
      | b :: rest =>
        if b = 0x2C then itemsFrom item fuel (j :: done) rest
        else if b = 0x5D then some ((j :: done).reverse, rest)
        else none

/-- The items of an array, after its opening bracket. -/
def items (item : Scan Json) : Scan (List Json) := fun bs =>
  match skipBlanks bs with
  | [] => none
  | b :: rest => if b = 0x5D then some ([], rest) else itemsFrom item bs [] (b :: rest)

/-- One member of an object: its key, a colon, and what `item` reads for that key. -/
def member (string : Scan String) (item : String → Scan Json) : Scan (String × Json) := fun bs =>
  match skipBlanks bs with
  | [] => none
  | b :: rest =>
    if b = 0x22 then
      match string rest with
      | none => none
      | some (key, rest) =>
        match skipBlanks rest with
        | [] => none
        | c :: rest =>
          if c = 0x3A then (item key rest).map fun (j, rest) => ((key, j), rest) else none
    else none

/-- The members of an object from the next one on, after those in `done`, which stand in
reverse. -/
def membersFrom (one : Scan (String × Json)) :
    (fuel : Bytes) → (done : List (String × Json)) → Scan (List (String × Json))
  | [], _, _ => none
  | _ :: fuel, done, bs =>
    match one bs with
    | none => none
    | some (m, rest) =>
      match skipBlanks rest with
      | [] => none
      | b :: rest =>
        if b = 0x2C then membersFrom one fuel (m :: done) rest
        else if b = 0x7D then some ((m :: done).reverse, rest)
        else none

/-- The members of an object in the order they are written, after its opening brace. -/
def members (one : Scan (String × Json)) : Scan (List (String × Json)) := fun bs =>
  match skipBlanks bs with
  | [] => none
  | b :: rest => if b = 0x7D then some ([], rest) else membersFrom one bs [] (b :: rest)

/-- A document with at most `limit` arrays and objects around one another. -/
def value (lexis : Lexis) : (limit : Nat) → Scan Json
  | 0, bs => scalar lexis (skipBlanks bs)
  | limit + 1, bs =>
    match skipBlanks bs with
    | [] => none
    | b :: rest =>
      if b = 0x5B then (items (value lexis limit) rest).map fun (js, rest) => (.array js, rest)
      else if b = 0x7B then
        (members (member lexis.string fun _ => value lexis limit) rest).map fun (ms, rest) =>
          (ofMembers ms, rest)
      else scalar lexis (b :: rest)

/-- How many arrays and objects a document may have around one another. -/
def nestingLimit : Nat := 127

end FeatureGraph.Json
