import EventContexts.Value
import EventContexts.Decimal
import EventContexts.Calendar

namespace EventContexts.Value

mutual

def text : Value → String
  | .null => "null"
  | .bool b => if b then "true" else "false"
  | .int n => toString n.toInt
  | .float x => x.text
  | .str s => "\"" ++ s ++ "\""
  | .timestamp ms => Instant.millisText ms.toInt
  | .array items => "[" ++ String.intercalate ", " (itemTexts items) ++ "]"
  | .map entries => "\x7b" ++ String.intercalate ", " (entryTexts entries) ++ "\x7d"

def itemTexts : List Value → List String
  | [] => []
  | v :: rest => text v :: itemTexts rest

def entryTexts : List (String × Value) → List String
  | [] => []
  | (k, v) :: rest => (k ++ ": " ++ text v) :: entryTexts rest

end

instance : ToString Value := ⟨text⟩

end EventContexts.Value
