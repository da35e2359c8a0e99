import EventContexts.Binary64

namespace EventContexts

/-- A positive decimal `0.d₁d₂… * 10 ^ point`, with its digits as one natural. -/
structure Decimal where
  digits : Nat
  point : Int
  deriving DecidableEq, Repr

namespace Decimal

/-- Which neighbour wins when the number lies midway between two candidates. -/
inductive Tie where
  | up
  | even
  deriving DecidableEq, Repr

/-- The decimals that read back as a finite pattern: those between the midpoints to its
neighbours, ends included for an even significand. Everything is in units of
`2 ^ (exponent - 2)`. -/
structure Window where
  low : Nat
  centre : Nat
  high : Nat
  closed : Bool
  unit : Int

def Window.of (x : Binary64) : Window :=
  let m := x.significand
  let narrow := x.fraction == 0 && 1 < x.exponentField
  { low := 4 * m - (if narrow then 1 else 2)
    centre := 4 * m
    high := 4 * m + 2
    closed := m % 2 == 0
    unit := x.exponent - 2 }

/-- A candidate `count * 10 ^ scale` and the window, both brought to one denominator: the pair of
factors for the count and for the window's numbers. -/
def Window.factors (w : Window) (scale : Int) : Nat × Nat :=
  (Nat.pow 10 scale.toNat * Nat.pow 2 (-w.unit).toNat,
    Nat.pow 2 w.unit.toNat * Nat.pow 10 (-scale).toNat)

def Window.admits (w : Window) (scale : Int) (count : Nat) : Bool :=
  let (f, g) := w.factors scale
  if w.closed then w.low * g ≤ count * f && count * f ≤ w.high * g
  else w.low * g < count * f && count * f < w.high * g

def Window.nearest? (w : Window) (tie : Tie) (scale : Int) : Option Nat :=
  let (f, g) := w.factors scale
  let below := w.centre * g / f
  let rest := w.centre * g - below * f
  match w.admits scale below, w.admits scale (below + 1) with
  | false, false => none
  | true, false => some below
  | false, true => some (below + 1)
  | true, true =>
      if 2 * rest < f then some below
      else if f < 2 * rest then some (below + 1)
      else match tie with
        | .up => some (below + 1)
        | .even => some (below + below % 2)

def Window.search (w : Window) (tie : Tie) (scale : Int) : Nat → Nat × Int
  | 0 => (w.centre, 0)
  | fuel + 1 =>
      match w.nearest? tie scale with
      | some (count + 1) => (count + 1, scale)
      | _ => w.search tie (scale - 1) fuel

def digitCount (n : Nat) : Nat := (Nat.toDigits 10 n).length

def stripZeros : Nat → Nat → Nat × Nat
  | 0, n => (n, 0)
  | fuel + 1, n =>
      if n % 10 = 0 ∧ n ≠ 0 then
        let (m, k) := stripZeros fuel (n / 10)
        (m, k + 1)
      else (n, 0)

/-- An exponent such that the number is below `10 ^ exponent`, at most two too large. -/
def ceilingExponent (x : Binary64) : Int :=
  let bits : Int := (Nat.log2 x.significand : Int) + 1 + x.exponent
  bits * 30103 / 100000 + 1

/-- The fewest digits that read back as the pattern, and of those the nearest. The pattern is
finite and not zero. -/
def shortest (tie : Tie) (x : Binary64) : Decimal :=
  let (count, scale) := (Window.of x).search tie (ceilingExponent x) 24
  let (digits, dropped) := stripZeros 24 count
  { digits, point := scale + dropped + digitCount digits }

def zeros (n : Nat) : String := String.ofList (List.replicate n '0')

def positional (d : Decimal) : String :=
  let ds := toString d.digits
  let n := ds.length
  if d.point ≤ 0 then "0." ++ zeros (-d.point).toNat ++ ds
  else if n ≤ d.point.toNat then ds ++ zeros (d.point.toNat - n)
  else
    let (whole, part) := ds.toList.splitAt d.point.toNat
    String.ofList whole ++ "." ++ String.ofList part

def exponentText (e : Int) : String := (if e < 0 then "-" else "+") ++ toString e.natAbs

def mantissa (d : Decimal) : String :=
  let (whole, part) := (toString d.digits).toList.splitAt 1
  if part.isEmpty then String.ofList whole
  else String.ofList whole ++ "." ++ String.ofList part

def scientific (d : Decimal) : String := d.mantissa ++ "e" ++ exponentText (d.point - 1)

end Decimal

namespace Binary64

/-- The text of a number in partition keys and filters: never an exponent. -/
def text (x : Binary64) : String :=
  if x.isNaN then "NaN"
  else
    let sign := if x.negative then "-" else ""
    if x.isInfinite then sign ++ "inf"
    else if x.significand = 0 then sign ++ "0"
    else sign ++ (Decimal.shortest .up x).positional

/-- The text of a number in documents: always with a point or an exponent, which is used below
`10 ^ -5` and from `10 ^ 16` on. Documents have no text for infinities and NaNs. -/
def documentText (x : Binary64) : String :=
  if !x.isFinite then "null"
  else
    let sign := if x.negative then "-" else ""
    if x.significand = 0 then sign ++ "0.0"
    else
      let d := Decimal.shortest .even x
      if -5 < d.point ∧ d.point ≤ 16 then
        let whole := decide ((Decimal.digitCount d.digits : Int) ≤ d.point)
        sign ++ d.positional ++ (if whole then ".0" else "")
      else sign ++ d.scientific

end Binary64

end EventContexts
