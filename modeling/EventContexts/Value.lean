import EventContexts.Binary64
import EventContexts.OrderedMap

namespace EventContexts

inductive Value where
  | null
  | bool (b : Bool)
  | int (n : Int64)
  | float (x : Binary64)
  | str (s : String)
  | timestamp (ms : Int64)
  | array (items : List Value)
  | map (entries : List (String × Value))
  deriving Repr, Inhabited

abbrev Props := OrderedMap String Value

namespace Value

def typeName : Value → String
  | .null => "null"
  | .bool _ => "bool"
  | .int _ => "int"
  | .float _ => "float"
  | .str _ => "str"
  | .timestamp _ => "timestamp"
  | .array _ => "array"
  | .map _ => "map"

def isNull : Value → Bool
  | .null => true
  | _ => false

def asInt? : Value → Option Int64
  | .int n => some n
  | .timestamp ms => some ms
  | .float x => some x.toInt64
  | _ => none

def asFloat? : Value → Option Binary64
  | .float x => some x
  | .int n => some (Binary64.ofInt n.toInt)
  | _ => none

def asStr? : Value → Option String
  | .str s => some s
  | _ => none

def asBool? : Value → Option Bool
  | .bool b => some b
  | _ => none

def get? (key : String) : Value → Option Value
  | .map entries => Entries.find? key entries
  | _ => none

def ofProps (props : Props) : Value := .map props.entries

end Value

class ToValue (α : Type) where
  toValue : α → Value

export ToValue (toValue)

instance : ToValue Bool := ⟨.bool⟩
instance : ToValue Int64 := ⟨.int⟩
instance : ToValue Int32 := ⟨fun n => .int n.toInt64⟩
instance : ToValue UInt32 := ⟨fun n => .int (Int64.ofNat n.toNat)⟩
instance : ToValue Binary64 := ⟨.float⟩
instance : ToValue String := ⟨.str⟩
instance : ToValue Props := ⟨Value.ofProps⟩
instance {α : Type} [ToValue α] : ToValue (List α) := ⟨fun xs => .array (xs.map toValue)⟩
instance {α : Type} [ToValue α] : ToValue (Option α) := ⟨fun x => x.elim .null toValue⟩

end EventContexts
