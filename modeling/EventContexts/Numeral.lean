import EventContexts.Binary64

namespace EventContexts

structure Numeral where
  sign : Option Char
  whole : List Char
  fraction : Option (List Char)
  exponent : Option (Option Char × List Char)
  deriving DecidableEq, Repr

namespace Numeral

def splitSign : List Char → Option Char × List Char
  | '-' :: cs => (some '-', cs)
  | '+' :: cs => (some '+', cs)
  | cs => (none, cs)

def splitDigits (cs : List Char) : List Char × List Char :=
  (cs.takeWhile Char.isDigit, cs.dropWhile Char.isDigit)

def split? (cs : List Char) : Option Numeral :=
  let (sign, cs) := splitSign cs
  let (whole, cs) := splitDigits cs
  let (fraction, cs) : Option (List Char) × List Char := match cs with
    | '.' :: cs =>
        let (digits, cs) := splitDigits cs
        (some digits, cs)
    | cs => (none, cs)
  let ofExponent (cs : List Char) : Option Numeral :=
    let (mark, cs) := splitSign cs
    let (digits, cs) := splitDigits cs
    if cs.isEmpty then some { sign, whole, fraction, exponent := some (mark, digits) } else none
  match cs with
  | [] => some { sign, whole, fraction, exponent := none }
  | 'e' :: cs => ofExponent cs
  | 'E' :: cs => ofExponent cs
  | _ => none

def isNegative (n : Numeral) : Bool := n.sign == some '-'

def isInteger (n : Numeral) : Bool := n.fraction.isNone && n.exponent.isNone

/-- No digits of the whole part are superfluous. -/
def isTight (n : Numeral) : Bool :=
  match n.whole with
  | [] => false
  | ['0'] => true
  | c :: _ => c != '0'

def fractionDigits (n : Numeral) : List Char := n.fraction.getD []

/-- A point and an `e` have digits after them. -/
def isComplete (n : Numeral) : Bool :=
  n.fraction != some [] && !n.exponent.any fun e => e.2.isEmpty

def digitValue (c : Char) : Nat := c.toNat - 48

def natOf (digits : List Char) : Nat := digits.foldl (fun n c => n * 10 + digitValue c) 0

def exponentValue (n : Numeral) : Int :=
  match n.exponent with
  | none => 0
  | some (mark, digits) => if mark = some '-' then -(natOf digits : Int) else natOf digits

def toInt (n : Numeral) : Int :=
  if n.isNegative then -(natOf n.whole : Int) else natOf n.whole

def nearest (n : Numeral) : Binary64 :=
  let digits := natOf (n.whole ++ n.fractionDigits)
  let scale := n.exponentValue - n.fractionDigits.length
  let size : Int := (Nat.toDigits 10 digits).length + scale
  Binary64.withSign n.isNegative <|
    if digits = 0 ∨ size < -400 then ⟨0⟩
    else if 400 < size then Binary64.infinity
    else if 0 ≤ scale then Binary64.ofRatio (digits * Nat.pow 10 scale.toNat) 1
    else Binary64.ofRatio digits (Nat.pow 10 (-scale).toNat)

end Numeral

end EventContexts
