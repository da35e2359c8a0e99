import EventContexts.Document
import EventContexts.Numeral
import EventContexts.Text.Hex

namespace EventContexts.Toml

def isBlank (c : Char) : Bool := c = ' ' || c = '\t'

def skipBlank (cs : List Char) : List Char := cs.dropWhile isBlank

def isForbidden (c : Char) : Bool := c.toNat < 0x20 && c ≠ '\t' || c.toNat = 0x7F

def readLiteral? : List Char → Option (List Char × List Char)
  | [] => none
  | '\'' :: cs => some ([], cs)
  | c :: cs => if isForbidden c then none else (readLiteral? cs).map fun (s, rest) => (c :: s, rest)

def escaped? : Char → Option Char
  | 'b' => some '\x08'
  | 't' => some '\t'
  | 'n' => some '\n'
  | 'f' => some '\x0c'
  | 'r' => some '\r'
  | '"' => some '"'
  | '\\' => some '\\'
  | _ => none

def announcedDigits : Char → Nat
  | 'u' => 4
  | 'U' => 8
  | _ => 0

/-- The content of a basic string, and what comes after it. The first argument counts the
characters of an escape that are still to be passed over. -/
def readBasic? : Nat → List Char → Option (List Char × List Char)
  | _, [] => none
  | passed + 1, _ :: cs => readBasic? passed cs
  | 0, '"' :: cs => some ([], cs)
  | 0, '\\' :: c :: cs =>
      let width := announcedDigits c
      if width = 0 then do
        let e ← escaped? c
        let (s, rest) ← readBasic? 0 cs
        return (e :: s, rest)
      else if cs.length < width then none
      else do
        let e ← Text.charOfHex? (cs.take width)
        let (s, rest) ← readBasic? width cs
        return (e :: s, rest)
  | 0, c :: cs =>
      if isForbidden c then none else (readBasic? 0 cs).map fun (s, rest) => (c :: s, rest)

def readQuoted? : List Char → Option (String × List Char)
  | '"' :: cs => (readBasic? 0 cs).map fun (s, rest) => (String.ofList s, rest)
  | '\'' :: cs => (readLiteral? cs).map fun (s, rest) => (String.ofList s, rest)
  | _ => none

def isBareChar (c : Char) : Bool := c.isAlphanum || c = '_' || c = '-'

def readName? (cs : List Char) : Option (String × List Char) :=
  match cs with
  | '"' :: _ => readQuoted? cs
  | '\'' :: _ => readQuoted? cs
  | _ =>
      let bare := cs.takeWhile isBareChar
      if bare.isEmpty then none else some (String.ofList bare, cs.dropWhile isBareChar)

def readNames? : (fuel : Nat) → List Char → Option (List String × List Char)
  | 0, _ => none
  | fuel + 1, cs => do
      let (name, rest) ← readName? (skipBlank cs)
      match skipBlank rest with
      | '.' :: rest =>
          let (names, rest) ← readNames? fuel rest
          return (name :: names, rest)
      | rest => return ([name], rest)

/-- What keys have fewer names than, and values fewer containers one in another. -/
def maxDepth : Nat := 80

def readKey? (cs : List Char) : Option (List String × List Char) := do
  let (names, rest) ← readNames? (cs.length + 1) cs
  if names.length < maxDepth then some (names, rest) else none

def isWordChar (c : Char) : Bool := isBareChar c || c = '+' || c = '.' || c = ':'

def plainDigits? (isDigit : Char → Bool) :
    (afterDigit : Bool) → List Char → Option (List Char)
  | _, [] => some []
  | afterDigit, '_' :: cs =>
      if afterDigit && cs.head?.any isDigit then plainDigits? isDigit false cs else none
  | _, c :: cs => (plainDigits? isDigit (isDigit c) cs).map (c :: ·)

def natInBase? (base : Nat) (cs : List Char) : Option Nat := do
  let isDigit (c : Char) : Bool := (Text.hexValue? c).any fun v => decide (v < base)
  Text.natInBase? base (← plainDigits? isDigit false cs)

def ofInt? (n : Int) : Option Document :=
  if Int64.minValue.toInt ≤ n ∧ n ≤ Int64.maxValue.toInt then some (.int n) else none

/-- An integer or a binary number in decimal digits. A number past the largest binary one is
refused, but one below the smallest is minus infinity. -/
def decimal? (cs : List Char) : Option Document := do
  let n ← Numeral.split? (← plainDigits? Char.isDigit false cs)
  if !n.isTight ∨ !n.isComplete then none
  else if n.isInteger then ofInt? n.toInt
  else if n.nearest = Binary64.infinity then none
  else some (.float n.nearest)

def scalar? (cs : List Char) : Option Document :=
  match cs with
  | '0' :: 'x' :: digits => (natInBase? 16 digits).bind fun n => ofInt? n
  | '0' :: 'o' :: digits => (natInBase? 8 digits).bind fun n => ofInt? n
  | '0' :: 'b' :: digits => (natInBase? 2 digits).bind fun n => ofInt? n
  | _ =>
      let (sign, unsigned) := Numeral.splitSign cs
      let negative := sign == some '-'
      if cs = "true".toList then some (.bool true)
      else if cs = "false".toList then some (.bool false)
      else if unsigned = "inf".toList then
        some (.float (Binary64.withSign negative Binary64.infinity))
      else if unsigned = "nan".toList then
        some (.float (Binary64.withSign negative Binary64.canonicalNaN))
      else decimal? cs

end EventContexts.Toml
