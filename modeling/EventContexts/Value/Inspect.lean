import EventContexts.Value
import EventContexts.Decimal
import EventContexts.Text.Quoted

namespace EventContexts

/-- Always with a point or an exponent, which is used below `10 ^ -4` and from `10 ^ 16` on. -/
def Binary64.inspect (x : Binary64) : String :=
  if !x.isFinite || x.significand = 0 then
    if x.significand = 0 then x.text ++ ".0" else x.text
  else
    let d := Decimal.shortest .up x
    let sign := if x.negative then "-" else ""
    if -4 < d.point ∧ d.point ≤ 16 then
      let whole := decide ((Decimal.digitCount d.digits : Int) ≤ d.point)
      sign ++ d.positional ++ (if whole then ".0" else "")
    else sign ++ d.mantissa ++ "e" ++ toString (d.point - 1)

namespace Value

open Text

mutual

def inspect : Value → String
  | .null => "Null"
  | .bool b => "Bool(" ++ (if b then "true" else "false") ++ ")"
  | .int n => "Int(" ++ toString n.toInt ++ ")"
  | .float x => "Float(" ++ x.inspect ++ ")"
  | .str s => "Str(" ++ quoted s ++ ")"
  | .timestamp ms => "Timestamp(" ++ toString ms.toInt ++ ")"
  | .array items => "Array(" ++ listed "[" "]" (inspectItems items) ++ ")"
  | .map entries => "Map(" ++ listed "\x7b" "\x7d" (inspectEntries entries) ++ ")"

def inspectItems : List Value → List String
  | [] => []
  | v :: rest => inspect v :: inspectItems rest

def inspectEntries : List (String × Value) → List String
  | [] => []
  | (k, v) :: rest => (quoted k ++ ": " ++ inspect v) :: inspectEntries rest

end

end Value

end EventContexts
