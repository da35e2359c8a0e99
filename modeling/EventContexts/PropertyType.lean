import EventContexts.Value.Order

namespace EventContexts

inductive PropertyType where
  | int
  | float
  | bool
  | str
  | timestamp
  | array (element : PropertyType)
  | record (fields : List (String × PropertyType))
  | any
  deriving Repr, Inhabited

namespace PropertyType

mutual

/-- Null conforms to every type, an integer also to `float`, and a record leaves fields that are
absent or not listed unchecked. -/
def accepts : PropertyType → Value → Bool
  | _, .null => true
  | .any, _ => true
  | .int, .int _ => true
  | .float, .float _ => true
  | .float, .int _ => true
  | .bool, .bool _ => true
  | .str, .str _ => true
  | .timestamp, .timestamp _ => true
  | .array element, .array items => items.all element.accepts
  | .record fields, .map entries => fieldsAccept fields entries
  | _, _ => false

def fieldsAccept : List (String × PropertyType) → List (String × Value) → Bool
  | [], _ => true
  | (name, type) :: rest, entries =>
      (match Entries.find? name entries with
        | none => true
        | some v => type.accepts v) &&
      fieldsAccept rest entries

end

mutual

/-- The type of a value; an array takes its first element's. -/
def of : Value → PropertyType
  | .null => .any
  | .bool _ => .bool
  | .int _ => .int
  | .float _ => .float
  | .str _ => .str
  | .timestamp _ => .timestamp
  | .array [] => .array .any
  | .array (v :: _) => .array (of v)
  | .map entries => .record (ofEntries entries)

def ofEntries : List (String × Value) → List (String × PropertyType)
  | [] => []
  | (k, v) :: rest => (k, of v) :: ofEntries rest

end

mutual

def text : PropertyType → String
  | .int => "int"
  | .float => "float"
  | .bool => "bool"
  | .str => "str"
  | .timestamp => "timestamp"
  | .array element => "[" ++ element.text ++ "]"
  | .record fields => "\x7b" ++ String.intercalate ", " (fieldTexts fields) ++ "\x7d"
  | .any => "any"

def fieldTexts : List (String × PropertyType) → List String
  | [] => []
  | (name, type) :: rest => (name ++ ": " ++ type.text) :: fieldTexts rest

end

end PropertyType

end EventContexts
