import EventContexts.Document
import EventContexts.Numeral
import EventContexts.Text.Hex

namespace EventContexts.Json

inductive Token where
  | openSeq
  | closeSeq
  | openMap
  | closeMap
  | comma
  | colon
  /-- A string, if its escapes make up characters. -/
  | text (s : Option String)
  | scalar (d : Document)
  deriving Repr

def isSpace (c : Char) : Bool := c = ' ' || c = '\n' || c = '\r' || c = '\t'

/-- What a number is spelled with. No other token may follow a number directly. -/
def isNumberChar (c : Char) : Bool :=
  c.isDigit || c = '-' || c = '+' || c = '.' || c = 'e' || c = 'E'

def hexUnit? (a b c d : Char) : Option Nat := Text.natInBase? 16 [a, b, c, d]

def escaped? : Char → Option Char
  | '"' => some '"'
  | '\\' => some '\\'
  | '/' => some '/'
  | 'b' => some '\x08'
  | 'f' => some '\x0c'
  | 'n' => some '\n'
  | 'r' => some '\r'
  | 't' => some '\t'
  | _ => none

/-- The characters of a string's units: a high surrogate and the low one after it make one
character, and neither stands for anything alone. -/
def charsOf? : List Nat → Option (List Char)
  | [] => some []
  | high :: low :: rest =>
      if 0xD800 ≤ high ∧ high < 0xDC00 then
        if 0xDC00 ≤ low ∧ low < 0xE000 then
          (charsOf? rest).map
            (Char.ofNat (0x10000 + (high - 0xD800) * 0x400 + (low - 0xDC00)) :: ·)
        else none
      else if 0xDC00 ≤ high ∧ high < 0xE000 then none
      else (charsOf? (low :: rest)).map (Char.ofNat high :: ·)
  | [unit] => if 0xD800 ≤ unit ∧ unit < 0xE000 then none else some [Char.ofNat unit]

/-- An integer of at most 64 bits, signed or not, or else the nearest binary number. Minus zero is
not an integer, and a number past the largest binary one stands for nothing. -/
def number? (cs : List Char) : Option Document := do
  let n ← Numeral.split? cs
  if n.sign = some '+' ∨ !n.isTight ∨ !n.isComplete then none
  else
    let i := n.toInt
    if n.isInteger ∧ Int64.minValue.toInt ≤ i ∧ i < UInt64.size ∧ ¬(n.isNegative ∧ i = 0) then
      some (.int i)
    else if n.nearest.isFinite then some (.float n.nearest)
    else some .unreadable

def Token.ofMark? : Char → Option Token
  | '[' => some .openSeq
  | ']' => some .closeSeq
  | '{' => some .openMap
  | '}' => some .closeMap
  | ',' => some .comma
  | ':' => some .colon
  | _ => none

mutual

def scan : List Char → (done : List Token) → Option (List Token)
  | [], done => some done.reverse
  | '"' :: cs, done => scanText cs [] done
  | 'n' :: 'u' :: 'l' :: 'l' :: cs, done => scan cs (.scalar .null :: done)
  | 't' :: 'r' :: 'u' :: 'e' :: cs, done => scan cs (.scalar (.bool true) :: done)
  | 'f' :: 'a' :: 'l' :: 's' :: 'e' :: cs, done => scan cs (.scalar (.bool false) :: done)
  | c :: cs, done =>
      if isSpace c then scan cs done
      else if c.isDigit || c = '-' then scanNumber cs [c] done
      else
        match Token.ofMark? c with
        | some mark => scan cs (mark :: done)
        | none => none

def scanText : List Char → (before : List Nat) → (done : List Token) → Option (List Token)
  | [], _, _ => none
  | '"' :: cs, before, done =>
      scan cs (.text ((charsOf? before.reverse).map String.ofList) :: done)
  | '\\' :: 'u' :: a :: b :: c :: d :: cs, before, done =>
      match hexUnit? a b c d with
      | some unit => scanText cs (unit :: before) done
      | none => none
  | '\\' :: e :: cs, before, done =>
      match escaped? e with
      | some c => scanText cs (c.toNat :: before) done
      | none => none
  | c :: cs, before, done => if c.toNat < 0x20 then none else scanText cs (c.toNat :: before) done

def scanNumber : List Char → (before : List Char) → (done : List Token) → Option (List Token)
  | [], before, done => (number? before.reverse).map fun d => (Token.scalar d :: done).reverse
  | c :: cs, before, done =>
      if isNumberChar c then scanNumber cs (c :: before) done
      else
        match number? before.reverse with
        | none => none
        | some d =>
            if isSpace c then scan cs (.scalar d :: done)
            else
              match Token.ofMark? c with
              | some mark => scan cs (mark :: .scalar d :: done)
              | none => none

end

def Token.ofText? (s : String) : Option (List Token) := scan s.toList []

end EventContexts.Json
