import EventContexts.Document
import EventContexts.Numeral
import EventContexts.Text.Hex

namespace EventContexts.Yaml.Spelling

def isNull (s : String) : Bool := ["", "~", "null", "Null", "NULL"].contains s

def bool? (s : String) : Option Bool :=
  if ["true", "True", "TRUE"].contains s then some true
  else if ["false", "False", "FALSE"].contains s then some false
  else none

def startsWithZero : List Char → Bool
  | '0' :: c :: cs => (c :: cs).all Char.isDigit
  | _ => false

def magnitude? : List Char → Option Nat
  | '0' :: 'x' :: cs => Text.natInBase? 16 cs
  | '0' :: 'o' :: cs => Text.natInBase? 8 cs
  | '0' :: 'b' :: cs => Text.natInBase? 2 cs
  | cs => if startsWithZero cs then none else Text.natInBase? 10 cs

/-- An integer that needs more than 64 bits, but no more than 128, stands for nothing. -/
def ofInt? (n : Int) : Option Document :=
  if Int64.minValue.toInt ≤ n ∧ n < UInt64.size then some (.int n)
  else if -Nat.pow 2 127 ≤ n ∧ n < Nat.pow 2 128 then some .unreadable
  else none

def int? (cs : List Char) : Option Document :=
  match Numeral.splitSign cs with
  | (some '-', rest) => do
      match ← magnitude? rest with
      | 0 => return .minusZero
      | n => ofInt? (-(n : Int))
  | (_, rest) => do ofInt? (← magnitude? rest)

def float? (cs : List Char) : Option Binary64 :=
  match Numeral.splitSign cs with
  | (sign, rest) =>
      let unsigned := String.ofList rest
      if [".inf", ".Inf", ".INF"].contains unsigned then
        some (Binary64.withSign (sign == some '-') Binary64.infinity)
      else if sign = none ∧ [".nan", ".NaN", ".NAN"].contains unsigned then
        some Binary64.canonicalNaN
      else if startsWithZero rest then none
      else do
        let n ← Numeral.split? cs
        let hasDigits := !(n.whole ++ n.fractionDigits).isEmpty
        let complete := !n.exponent.any fun e => e.2.isEmpty
        if hasDigits ∧ complete ∧ n.nearest.isFinite then some n.nearest else none

def toDocument (s : String) : Document :=
  if isNull s then .null
  else
    match bool? s, int? s.toList, float? s.toList with
    | some b, _, _ => .bool b
    | none, some d, _ => d
    | none, none, some x => .float x
    | none, none, none => .text s

end EventContexts.Yaml.Spelling
