-- Events: JSON documents under ids that grow with time.
import FeatureGraph.Json.Printer
import FeatureGraph.Json.Reader
import FeatureGraph.Text.Hex

namespace FeatureGraph

/-- One entry of the event log. -/
structure Event where
  id : String
  data : Json
deriving Inhabited

namespace Event

/-- The line that stores an event. -/
def line (e : Event) : String :=
  String.ofList <|
    "\x7b\x22id\x22:".toList ++ Json.stringChars e.id ++ ",\x22data\x22:".toList ++ e.data.chars
      ++ ['\x7d']

/-- The event that a line stores. -/
def parse? (bs : Bytes) : Option Event :=
  match Json.parseRecord? ["id", "data"] bs with
  | some [.string id, data] => some ⟨id, data⟩
  | _ => none

/-! ## Ids -/

/-- The id of an event: its time stamp, then a random suffix, each in sixteen digits. Ids of
one length have the order of their stamps. -/
def mintId (stamp suffix : Nat) : String :=
  String.ofList (Text.hexFixed 16 stamp ++ Text.hexFixed 16 suffix)

/-- The time stamp of an id: its first sixteen bytes as a hexadecimal number, with or
without a plus sign; zero for an id of another form. -/
def stampOf (id : String) : Nat :=
  let head := (Text.encode id).take 16
  if head.length < 16 then 0
  else
    let digits := head.map fun b => Char.ofNat b.toNat
    ((Text.readHex (if digits.head? = some '+' then digits.tail else digits))).getD 0

end Event

end FeatureGraph
