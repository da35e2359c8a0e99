/-!
Numbers in the 64-bit binary interchange format, kept as their bit patterns. A finite pattern
stands for `significand * 2 ^ exponent`; all arithmetic below is exact on that reading, followed
by one rounding to the nearest pattern.
-/

namespace EventContexts

structure Binary64 where
  bits : UInt64
  deriving DecidableEq, Repr, Inhabited

namespace Binary64

def negative (x : Binary64) : Bool := decide (Nat.pow 2 63 ≤ x.bits.toNat)

def exponentField (x : Binary64) : Nat := x.bits.toNat / Nat.pow 2 52 % Nat.pow 2 11

def fraction (x : Binary64) : Nat := x.bits.toNat % Nat.pow 2 52

def isNaN (x : Binary64) : Bool := x.exponentField == 2047 && x.fraction != 0

def isInfinite (x : Binary64) : Bool := x.exponentField == 2047 && x.fraction == 0

def isFinite (x : Binary64) : Bool := x.exponentField != 2047

def significand (x : Binary64) : Nat :=
  if x.exponentField = 0 then x.fraction else Nat.pow 2 52 + x.fraction

def exponent (x : Binary64) : Int :=
  if x.exponentField = 0 then -1074 else (x.exponentField : Int) - 1075

/-- The place of a pattern in the total order: negative patterns by falling magnitude, then
positive ones by rising magnitude, with the two zeros and all NaNs apart. -/
def orderKey (x : Binary64) : Int :=
  if x.negative then Int64.maxValue.toInt - (x.bits.toNat : Int) else x.bits.toNat

theorem orderKey_injective {x y : Binary64} (h : x.orderKey = y.orderKey) : x = y := by
  have hx := x.bits.toNat_lt
  have hy := y.bits.toNat_lt
  have : x.bits.toNat = y.bits.toNat := by
    simp only [orderKey, negative, decide_eq_true_eq, Int64.toInt_maxValue, Nat.pow_eq] at h
    split at h <;> split at h <;> omega
  obtain ⟨x⟩ := x
  obtain ⟨y⟩ := y
  exact congrArg Binary64.mk (UInt64.toNat_inj.1 this)

def totalCompare (x y : Binary64) : Ordering := compare x.orderKey y.orderKey

def infinity : Binary64 := ⟨0x7FF0000000000000⟩

def canonicalNaN : Binary64 := ⟨0x7FF8000000000000⟩

def withSign (negative : Bool) (x : Binary64) : Binary64 :=
  if negative then ⟨x.bits ||| 0x8000000000000000⟩ else x

def roundHalfEven (num den : Nat) : Nat :=
  let quotient := num / den
  let doubled := 2 * (num % den)
  if doubled < den then quotient
  else if den < doubled then quotient + 1
  else quotient + quotient % 2

/-- The exponent `k` with `2 ^ k ≤ num / den < 2 ^ (k + 1)`. -/
def binaryMagnitude (num den : Nat) : Int :=
  let k : Int := (Nat.log2 num : Int) - Nat.log2 den
  let reached := if 0 ≤ k then den <<< k.toNat ≤ num else den ≤ num <<< (-k).toNat
  if reached then k else k - 1

/-- The pattern nearest to the ratio, infinite from the first value past the largest finite one. -/
def ofRatio (num den : Nat) : Binary64 :=
  if num = 0 then ⟨0⟩ else
    let q := max (-1074) (binaryMagnitude num den - 52)
    let significand :=
      if 0 ≤ q then roundHalfEven num (den <<< q.toNat)
      else roundHalfEven (num <<< (-q).toNat) den
    let pattern := (q + 1074).toNat * Nat.pow 2 52 + significand
    ⟨UInt64.ofNat (min pattern infinity.bits.toNat)⟩

def ofInt (n : Int) : Binary64 := withSign (decide (n < 0)) (ofRatio n.natAbs 1)

def ratio (x : Binary64) : Nat × Nat :=
  if 0 ≤ x.exponent then (x.significand <<< x.exponent.toNat, 1)
  else (x.significand, Nat.pow 2 (-x.exponent).toNat)

def clampInt64 (n : Int) : Int64 :=
  if n < Int64.minValue.toInt then Int64.minValue
  else if Int64.maxValue.toInt < n then Int64.maxValue
  else Int64.ofInt n

/-- Drops the fraction and stops at the ends of the integer range; a NaN becomes zero. -/
def toInt64 (x : Binary64) : Int64 :=
  if x.isNaN then 0
  else if x.isInfinite then (if x.negative then Int64.minValue else Int64.maxValue)
  else
    let magnitude : Int := x.ratio.1 / x.ratio.2
    clampInt64 (if x.negative then -magnitude else magnitude)

end Binary64

end EventContexts
