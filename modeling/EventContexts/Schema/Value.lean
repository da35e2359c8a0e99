import EventContexts.Document
import EventContexts.PropertyType

namespace EventContexts

namespace Value

mutual

/-- Time stamps are written as integers. -/
def toDocument : Value → Document
  | .null => .null
  | .bool b => .bool b
  | .int n => .int n.toInt
  | .float x => .float x
  | .str s => .text s
  | .timestamp ms => .int ms.toInt
  | .array items => .seq (itemsToDocuments items)
  | .map entries => .map (entriesToDocuments entries)

def itemsToDocuments : List Value → List Document
  | [] => []
  | v :: rest => toDocument v :: itemsToDocuments rest

def entriesToDocuments : List (String × Value) → List (String × Document)
  | [] => []
  | (name, v) :: rest => (name, toDocument v) :: entriesToDocuments rest

end

mutual

/-- An integer that is too large for its kind becomes a binary number. -/
def ofDocument? : Document → Option Value
  | .null => some .null
  | .bool b => some (.bool b)
  | .int n =>
      if Int64.minValue.toInt ≤ n ∧ n ≤ Int64.maxValue.toInt then some (.int (Int64.ofInt n))
      else some (.float (Binary64.ofInt n))
  | .minusZero => some (.int 0)
  | .float x => some (.float x)
  | .text s => some (.str s)
  | .seq items => (itemsOf? items).map .array
  | .map members => (entriesOf? members).map fun entries => .map (Entries.ofPairs entries)
  | .keyed _ => none
  | .unreadable => none

def itemsOf? : List Document → Option (List Value)
  | [] => some []
  | d :: rest => do
      let v ← ofDocument? d
      return v :: (← itemsOf? rest)

def entriesOf? : List (String × Document) → Option (List (String × Value))
  | [] => some []
  | (name, d) :: rest => do
      let v ← ofDocument? d
      return (name, v) :: (← entriesOf? rest)

end

end Value

def Props.toDocument (p : Props) : Document := .map (Value.entriesToDocuments p.entries)

/-- A name that comes again keeps its place and takes the later value. -/
def Props.ofDocument? : Document → Option Props
  | .map members => (Value.entriesOf? members).map OrderedMap.ofPairs
  | _ => none

namespace PropertyType

mutual

def toDocument : PropertyType → Document
  | .int => .text "int"
  | .float => .text "float"
  | .bool => .text "bool"
  | .str => .text "str"
  | .timestamp => .text "timestamp"
  | .array element => .map [("array", toDocument element)]
  | .record fields => .map [("record", .seq (fieldsToDocuments fields))]
  | .any => .text "any"

def fieldsToDocuments : List (String × PropertyType) → List Document
  | [] => []
  | (name, type) :: rest => .seq [.text name, toDocument type] :: fieldsToDocuments rest

end

def ofName? : String → Option PropertyType
  | "int" => some .int
  | "float" => some .float
  | "bool" => some .bool
  | "str" => some .str
  | "timestamp" => some .timestamp
  | "any" => some .any
  | _ => none

mutual

def ofDocument? : Document → Option PropertyType
  | .text name => ofName? name
  | .map [(name, .null)] => ofName? name
  | .map [("array", element)] => (ofDocument? element).map .array
  | .map [("record", .seq fields)] => (fieldsOf? fields).map .record
  | _ => none

def fieldsOf? : List Document → Option (List (String × PropertyType))
  | [] => some []
  | .seq [.text name, type] :: rest => do
      let type ← ofDocument? type
      return (name, type) :: (← fieldsOf? rest)
  | _ => none

end

end PropertyType

end EventContexts
