import EventContexts.Proofs.Routing
import Mathlib.Algebra.Group.Nat.Defs
import Mathlib.Data.Nat.Log
/-!
Integers as events carry them, compared through the nearest binary numbers. These numbers rise with
the integers, and they are apart as soon as one of the two integers has no more than 53 digits.
-/

namespace EventContexts

namespace Binary64

section rounding

variable {m n d : Nat}

theorem le_roundHalfEven : n / d ≤ roundHalfEven n d := by
  simp only [roundHalfEven]
  split
  · exact Nat.le_refl _
  · split
    · exact Nat.le_succ _
    · exact Nat.le_add_right _ _

theorem roundHalfEven_le : roundHalfEven n d ≤ n / d + 1 := by
  simp only [roundHalfEven]
  split
  · exact Nat.le_succ _
  · split
    · exact Nat.le_refl _
    · exact Nat.add_le_add_left (Nat.le_of_lt_succ (Nat.mod_lt _ Nat.two_pos)) _

theorem roundHalfEven_one : roundHalfEven n 1 = n := by
  simp [roundHalfEven, Nat.mod_one]

theorem roundHalfEven_mono (h : m ≤ n) : roundHalfEven m d ≤ roundHalfEven n d := by
  rcases Nat.lt_or_eq_of_le (Nat.div_le_div_right (c := d) h) with hlt | heq
  · exact Nat.le_trans roundHalfEven_le (Nat.le_trans hlt le_roundHalfEven)
  · have hmod : m % d ≤ n % d := by
      have hm := Nat.div_add_mod m d
      have hn := Nat.div_add_mod n d
      rw [heq] at hm
      omega
    simp only [roundHalfEven, heq]
    grind

end rounding

section whole

variable {m n : Nat}

/-- The digits that the pattern of a whole number keeps, the leading one included. -/
def wholeSignificand (n : Nat) : Nat :=
  if n.log2 ≤ 52 then n * 2 ^ (52 - n.log2) else roundHalfEven n (2 ^ (n.log2 - 52))

/-- The pattern of a whole number: a significand that is rounded up to the next power of two makes
the step to the next exponent by its carry. -/
def wholePattern (n : Nat) : Nat :=
  if n = 0 then 0 else (n.log2 + 1022) * 2 ^ 52 + wholeSignificand n

theorem le_wholeSignificand (h : n ≠ 0) : 2 ^ 52 ≤ wholeSignificand n := by
  have hlow := Nat.log2_self_le h
  rw [wholeSignificand]
  split
  · next hk =>
      calc 2 ^ 52 = 2 ^ n.log2 * 2 ^ (52 - n.log2) := by rw [← Nat.pow_add]; congr 1; omega
        _ ≤ n * 2 ^ (52 - n.log2) := Nat.mul_le_mul_right _ hlow
  · next hk =>
      refine Nat.le_trans ?_ le_roundHalfEven
      rw [Nat.le_div_iff_mul_le (Nat.two_pow_pos _), ← Nat.pow_add]
      exact Nat.le_trans (Nat.pow_le_pow_right Nat.two_pos (by omega)) hlow

theorem wholeSignificand_lt (h : n < 2 ^ 53) : wholeSignificand n < 2 ^ 53 := by
  by_cases h0 : n = 0
  · subst h0; decide
  · have hk : n.log2 < 53 := (Nat.log2_lt h0).2 h
    rw [wholeSignificand, if_pos (by omega)]
    calc n * 2 ^ (52 - n.log2)
        < 2 ^ (n.log2 + 1) * 2 ^ (52 - n.log2) :=
          Nat.mul_lt_mul_of_pos_right Nat.lt_log2_self (Nat.two_pow_pos _)
      _ = 2 ^ 53 := by rw [← Nat.pow_add]; congr 1; omega

theorem wholeSignificand_le (n : Nat) : wholeSignificand n ≤ 2 ^ 53 := by
  by_cases h : n < 2 ^ 53
  · exact Nat.le_of_lt (wholeSignificand_lt h)
  · have h0 : n ≠ 0 := by omega
    have hk : ¬ n.log2 < 53 := fun hk => h ((Nat.log2_lt h0).1 hk)
    have hdiv : n / 2 ^ (n.log2 - 52) < 2 ^ 53 := by
      rw [Nat.div_lt_iff_lt_mul (Nat.two_pow_pos _), ← Nat.pow_add,
        show 53 + (n.log2 - 52) = n.log2 + 1 by omega]
      exact Nat.lt_log2_self
    rw [wholeSignificand, if_neg (by omega)]
    exact Nat.le_trans roundHalfEven_le hdiv

theorem wholeSignificand_mono (hk : m.log2 = n.log2) (h : m ≤ n) :
    wholeSignificand m ≤ wholeSignificand n := by
  rw [wholeSignificand, wholeSignificand, hk]
  split
  · exact Nat.mul_le_mul_right _ h
  · exact roundHalfEven_mono h

theorem wholePattern_mono (h : m ≤ n) : wholePattern m ≤ wholePattern n := by
  by_cases hm0 : m = 0
  · rw [wholePattern, if_pos hm0]
    exact Nat.zero_le _
  · have hn0 : n ≠ 0 := by omega
    have hlog : m.log2 ≤ n.log2 := by
      simpa only [Nat.log2_eq_log_two] using Nat.log_mono_right h
    rw [wholePattern, wholePattern, if_neg hm0, if_neg hn0]
    rcases Nat.lt_or_eq_of_le hlog with hk | hk
    · have hm := wholeSignificand_le m
      have hn := le_wholeSignificand hn0
      omega
    · rw [hk]
      exact Nat.add_le_add_left (wholeSignificand_mono hk h) _

theorem wholePattern_lt (h : m < n) (hm : m < 2 ^ 53) : wholePattern m < wholePattern n := by
  have hn0 : n ≠ 0 := by omega
  have hn := le_wholeSignificand hn0
  by_cases hm0 : m = 0
  · rw [wholePattern, wholePattern, if_pos hm0, if_neg hn0]
    omega
  · have hlog : m.log2 ≤ n.log2 := by
      simpa only [Nat.log2_eq_log_two] using Nat.log_mono_right (Nat.le_of_lt h)
    rw [wholePattern, wholePattern, if_neg hm0, if_neg hn0]
    rcases Nat.lt_or_eq_of_le hlog with hk | hk
    · have hm' := wholeSignificand_lt hm
      omega
    · have hsmall : m.log2 ≤ 52 := Nat.le_of_lt_succ ((Nat.log2_lt hm0).2 hm)
      rw [hk]
      refine Nat.add_lt_add_left ?_ _
      rw [wholeSignificand, wholeSignificand, if_pos hsmall, if_pos (hk ▸ hsmall), hk]
      exact Nat.mul_lt_mul_of_pos_right h (Nat.two_pow_pos _)

theorem wholePattern_lt_infinity (h : n < 2 ^ 64) : wholePattern n < infinity.bits.toNat := by
  have hinf : infinity.bits.toNat = 2047 * 2 ^ 52 := by decide
  have hs := wholeSignificand_le n
  rw [wholePattern, hinf]
  split
  · decide
  · next h0 =>
      have hk : n.log2 < 64 := (Nat.log2_lt h0).2 h
      omega

theorem toNat_ofRatio_one (h : n < 2 ^ 64) : (ofRatio n 1).bits.toNat = wholePattern n := by
  have hbound := wholePattern_lt_infinity h
  by_cases h0 : n = 0
  · subst h0; rfl
  have hlog : Nat.log2 1 = 0 := by decide
  have hlow : 1 <<< n.log2 ≤ n := by
    rw [Nat.one_shiftLeft]
    exact Nat.log2_self_le h0
  have hmagnitude : binaryMagnitude n 1 = n.log2 := by
    simp [binaryMagnitude, hlog, hlow]
  have hq : max (-1074) ((n.log2 : Int) - 52) = n.log2 - 52 := by omega
  have hsignificand : (if 0 ≤ (n.log2 : Int) - 52
      then roundHalfEven n (1 <<< ((n.log2 : Int) - 52).toNat)
      else roundHalfEven (n <<< (-((n.log2 : Int) - 52)).toNat) 1) = wholeSignificand n := by
    rw [wholeSignificand]
    rcases Nat.lt_trichotomy n.log2 52 with hk | hk | hk
    · rw [if_neg (by omega), if_pos (Nat.le_of_lt hk), roundHalfEven_one, Nat.shiftLeft_eq]
      congr 2
      omega
    · rw [if_pos (by omega), if_pos (Nat.le_of_eq hk), hk]
      simp [roundHalfEven_one]
    · rw [if_pos (by omega), if_neg (by omega), Nat.one_shiftLeft]
      congr 2
      omega
  have hpattern : ((n.log2 : Int) - 52 + 1074).toNat * Nat.pow 2 52 + wholeSignificand n =
      wholePattern n := by
    rw [wholePattern, if_neg h0, Nat.pow_eq]
    omega
  rw [ofRatio, if_neg h0]
  simp only [hmagnitude, hq, hsignificand, hpattern]
  rw [Nat.min_eq_left (Nat.le_of_lt hbound), UInt64.toNat_ofNat_of_lt']
  exact Nat.lt_trans hbound (UInt64.toNat_lt _)

end whole

section integers

variable {a b : Int}

theorem toNat_withSign {x : Binary64} (h : x.bits.toNat < 2 ^ 63) :
    (withSign true x).bits.toNat = x.bits.toNat + 2 ^ 63 := by
  have hor := Nat.two_pow_add_eq_or_of_lt h 1
  change (x.bits ||| 0x8000000000000000).toNat = _
  rw [UInt64.toNat_or, Nat.or_comm, Nat.add_comm]
  simpa using hor.symm

theorem orderKey_ofInt (h : a.natAbs < 2 ^ 64) :
    (ofInt a).orderKey = if a < 0 then -1 - (wholePattern a.natAbs : Int)
      else wholePattern a.natAbs := by
  have hinf : infinity.bits.toNat < 2 ^ 63 := by decide
  have hbound := wholePattern_lt_infinity h
  have hbits := toNat_ofRatio_one h
  by_cases hneg : a < 0
  · have hsigned := toNat_withSign (x := ofRatio a.natAbs 1) (by omega)
    have hnegative : (withSign true (ofRatio a.natAbs 1)).negative = true := by
      rw [negative, hsigned, Nat.pow_eq]
      exact decide_eq_true (Nat.le_add_left ..)
    rw [if_pos hneg, ofInt, decide_eq_true hneg, orderKey, if_pos hnegative, hsigned, hbits,
      Int64.toInt_maxValue]
    omega
  · have hnegative : (ofRatio a.natAbs 1).negative = false := by
      rw [negative, hbits, Nat.pow_eq]
      exact decide_eq_false (by omega)
    rw [if_neg hneg, ofInt, decide_eq_false hneg, withSign, if_neg Bool.false_ne_true, orderKey,
      hnegative, if_neg Bool.false_ne_true, hbits]

theorem orderKey_ofInt_mono (ha : a.natAbs < 2 ^ 64) (hb : b.natAbs < 2 ^ 64) (h : a ≤ b) :
    (ofInt a).orderKey ≤ (ofInt b).orderKey := by
  rw [orderKey_ofInt ha, orderKey_ofInt hb]
  split
  · split
    · have hp := wholePattern_mono (show b.natAbs ≤ a.natAbs by omega)
      omega
    · omega
  · rw [if_neg (by omega)]
    exact Int.ofNat_le.2 (wholePattern_mono (by omega))

theorem orderKey_ofInt_lt (ha : a.natAbs < 2 ^ 64) (hb : b.natAbs < 2 ^ 64) (h : a < b)
    (hshort : a.natAbs < 2 ^ 53 ∨ b.natAbs < 2 ^ 53) :
    (ofInt a).orderKey < (ofInt b).orderKey := by
  rw [orderKey_ofInt ha, orderKey_ofInt hb]
  split
  · split
    · have hp := wholePattern_lt (show b.natAbs < a.natAbs by omega) (by omega)
      omega
    · omega
  · rw [if_neg (by omega)]
    exact Int.ofNat_lt.2 (wholePattern_lt (by omega) (by omega))

end integers

end Binary64

def OneShort (a b : Int64) : Prop := a.toInt.natAbs < 2 ^ 53 ∨ b.toInt.natAbs < 2 ^ 53

instance (a b : Int64) : Decidable (OneShort a b) := inferInstanceAs (Decidable (_ ∨ _))

namespace Value

variable {a b : Int64}

theorem natAbs_toInt_lt (a : Int64) : a.toInt.natAbs < 2 ^ 64 := by
  have hlow := Int64.le_toInt a
  have hhigh := Int64.toInt_lt a
  omega

theorem numericCmp_int_of_lt (h : a.toInt < b.toInt) (hshort : OneShort a b) :
    numericCmp (.int a) (.int b) = .lt :=
  Int.compare_eq_lt.2 <|
    Binary64.orderKey_ofInt_lt (natAbs_toInt_lt a) (natAbs_toInt_lt b) h hshort

theorem numericCmp_int_of_gt (h : b.toInt < a.toInt) (hshort : OneShort a b) :
    numericCmp (.int a) (.int b) = .gt :=
  Int.compare_eq_gt.2 <|
    Binary64.orderKey_ofInt_lt (natAbs_toInt_lt b) (natAbs_toInt_lt a) h hshort.symm

theorem lt_of_numericCmp_int (h : numericCmp (.int a) (.int b) = .lt) : a.toInt < b.toInt := by
  refine Int.lt_of_not_ge fun hle => ?_
  have hmono := Binary64.orderKey_ofInt_mono (natAbs_toInt_lt b) (natAbs_toInt_lt a) hle
  exact Int.not_lt.2 hmono (Int.compare_eq_lt.1 h)

theorem eq_of_numericCmp_int (h : numericCmp (.int a) (.int b) = .eq) (hshort : OneShort a b) :
    a = b := by
  rcases Int.lt_trichotomy a.toInt b.toInt with hlt | heq | hgt
  · rw [numericCmp_int_of_lt hlt hshort] at h
    cases h
  · exact Int64.toInt_inj.1 heq
  · rw [numericCmp_int_of_gt hgt hshort] at h
    cases h

end Value

section event

variable {e : Event} {p : String} {n : Int64}

namespace Constraint

theorem accepts_equal_int (hn : e.field p = .int n) {v : Int64} :
    accepts ⟨p, .equal (.int v)⟩ e = true ↔ Value.numericCmp (.int n) (.int v) = .eq := by
  rw [accepts, Test.holds, hn, beq_iff_eq]

theorem accepts_oneOf_int (hn : e.field p = .int n) {vs : List Int64} :
    accepts ⟨p, .oneOf (vs.map .int)⟩ e = true ↔
      ∃ v ∈ vs, Value.numericCmp (.int n) (.int v) = .eq := by
  simp only [accepts, Test.holds, hn, List.any_map, List.any_eq_true, Function.comp_apply,
    beq_iff_eq]

theorem accepts_range_int (hn : e.field p = .int n) {low high : Int64} :
    accepts ⟨p, .range (.int low) (.int high)⟩ e = true ↔
      Value.numericCmp (.int n) (.int low) ≠ .lt ∧ Value.numericCmp (.int n) (.int high) = .lt := by
  simp [accepts, Test.holds, hn, Value.isNull]

theorem equal_int (hn : e.field p = .int n) (v : Int64) :
    (n = v → accepts ⟨p, .equal (.int v)⟩ e = true) ∧
      (OneShort n v → accepts ⟨p, .equal (.int v)⟩ e = true → n = v) := by
  rw [accepts_equal_int hn]
  refine ⟨?_, fun hshort heq => Value.eq_of_numericCmp_int heq hshort⟩
  rintro rfl
  exact Value.numericCmp_self _

theorem oneOf_int (hn : e.field p = .int n) (vs : List Int64) :
    (n ∈ vs → accepts ⟨p, .oneOf (vs.map .int)⟩ e = true) ∧
      ((∀ v ∈ vs, OneShort n v) → accepts ⟨p, .oneOf (vs.map .int)⟩ e = true → n ∈ vs) := by
  rw [accepts_oneOf_int hn]
  refine ⟨fun hmem => ⟨n, hmem, Value.numericCmp_self _⟩, ?_⟩
  rintro hshort ⟨v, hv, heq⟩
  exact Value.eq_of_numericCmp_int heq (hshort v hv) ▸ hv

theorem range_int (hn : e.field p = .int n) (low high : Int64) :
    (OneShort n high → low ≤ n → n < high →
        accepts ⟨p, .range (.int low) (.int high)⟩ e = true) ∧
      (accepts ⟨p, .range (.int low) (.int high)⟩ e = true →
        n < high ∧ (OneShort n low → low ≤ n)) := by
  rw [accepts_range_int hn, Int64.le_iff_toInt_le, Int64.lt_iff_toInt_lt]
  constructor
  · intro hshort hlow hhigh
    refine ⟨fun hlt => ?_, Value.numericCmp_int_of_lt hhigh hshort⟩
    exact Int.not_lt.2 hlow (Value.lt_of_numericCmp_int hlt)
  · rintro ⟨hlow, hhigh⟩
    refine ⟨Value.lt_of_numericCmp_int hhigh, fun hshort => Int.not_lt.1 fun hlt => ?_⟩
    exact hlow (Value.numericCmp_int_of_lt hlt hshort)

end Constraint

theorem KeyedLevel.eq_of_accepts {ps : List String} {ns vs : List Int64}
    (hkey : ps.map e.field = ns.map .int) (hshort : List.Forall₂ OneShort ns vs)
    (haccepts : ∀ c ∈ (ps.zip (vs.map Value.int)).map fun (p, v) => Constraint.equal p v,
      c.accepts e = true) : ns = vs := by
  -- on the two keys at once; the properties go with the first
  induction hshort generalizing ps with
  | nil => rfl
  | @cons n v ns vs hfirst _ ih =>
      cases ps with
      | nil => cases hkey
      | cons p ps =>
          obtain ⟨hn, hkey⟩ := List.cons.inj hkey
          simp only [List.map_cons, List.zip_cons_cons, List.forall_mem_cons] at haccepts
          obtain ⟨hp, hrest⟩ := haccepts
          rw [(Constraint.equal_int hn v).2 hfirst hp, ih hkey hrest]

theorem KeyedLevel.int_keys {l : KeyedLevel} {s : Statement} {f : HeldFilter}
    {cs : List Constraint} {ns vs : List Int64}
    (hkey : l.keyFor? e = some (.keyed (ns.map .int)))
    (hcs : (f, cs) ∈ (Level.keyed l).contributions s (.keyed (vs.map .int)))
    (htype : f.eventType = e.type) :
    (ns = vs → ∀ c ∈ cs, c.accepts e = true) ∧
      (List.Forall₂ OneShort ns vs → (∀ c ∈ cs, c.accepts e = true) → ns = vs) := by
  obtain ⟨i, hi, hvalues⟩ := Option.map_eq_some_iff.1 hkey
  obtain ⟨b, hb, heq⟩ := List.mem_map.1 hcs
  obtain ⟨g, -, hbinding⟩ := List.mem_filterMap.1 hb
  obtain ⟨j, hj, rfl⟩ := Option.map_eq_some_iff.1 hbinding
  obtain ⟨rfl, rfl⟩ := Prod.mk.inj heq
  obtain rfl : i = j := Option.some.inj (hi.symm.trans (htype ▸ hj))
  have hprops : i.properties.map e.field = ns.map .int := Key.keyed.inj hvalues
  constructor
  · rintro rfl c hc
    exact Level.keyOf_accepts (i := i) (by rwa [KeyedLevel.keyOf, hprops])
  · exact KeyedLevel.eq_of_accepts hprops

end event

/-- Constraints on integers are exact unless both sides are long: equality and lists let through
what they must at any length, and a range never goes past its upper end; what else they must tell
apart they do if one of the two integers has no more than 53 digits. So the constraints of a key let
an event of another key through only between long integers. -/
theorem Event.integer_constraints (e : Event) :
    (∀ (p : String) (n : Int64), e.field p = .int n →
      (∀ v, (n = v → Constraint.accepts ⟨p, .equal (.int v)⟩ e = true) ∧
        (OneShort n v → Constraint.accepts ⟨p, .equal (.int v)⟩ e = true → n = v)) ∧
      (∀ vs : List Int64, (n ∈ vs → Constraint.accepts ⟨p, .oneOf (vs.map .int)⟩ e = true) ∧
        ((∀ v ∈ vs, OneShort n v) →
          Constraint.accepts ⟨p, .oneOf (vs.map .int)⟩ e = true → n ∈ vs)) ∧
      ∀ low high, (OneShort n high → low ≤ n → n < high →
          Constraint.accepts ⟨p, .range (.int low) (.int high)⟩ e = true) ∧
        (Constraint.accepts ⟨p, .range (.int low) (.int high)⟩ e = true →
          n < high ∧ (OneShort n low → low ≤ n))) ∧
    ∀ (l : KeyedLevel) (s : Statement) (f : HeldFilter) (cs : List Constraint)
        (ns vs : List Int64),
      l.keyFor? e = some (.keyed (ns.map .int)) →
      (f, cs) ∈ (Level.keyed l).contributions s (.keyed (vs.map .int)) → f.eventType = e.type →
      (ns = vs → ∀ c ∈ cs, c.accepts e = true) ∧
        (List.Forall₂ OneShort ns vs → (∀ c ∈ cs, c.accepts e = true) → ns = vs) := by
  refine ⟨fun p n hn => ⟨?_, ?_, ?_⟩, fun l s f cs ns vs hkey hcs htype => ?_⟩
  · exact Constraint.equal_int hn
  · exact Constraint.oneOf_int hn
  · exact Constraint.range_int hn
  · exact KeyedLevel.int_keys hkey hcs htype

theorem Event.integer_constraints_next :
    let e : Event :=
      { type := "Page", data := OrderedMap.ofPairs [("user", .int 9007199254740991)] }
    let users : KeyedLevel := { name := "user", items := [⟨"Page", ["user"]⟩] }
    let pages : HeldFilter := ⟨0, { eventType := "Page" }⟩
    let next := Constraint.equal "user" (.int 9007199254740992)
    next.accepts e = false ∧
      Constraint.accepts ⟨"user", .oneOf [.int 9007199254740992]⟩ e = false ∧
      Constraint.accepts ⟨"user", .range (.int 9007199254740991) (.int 9007199254740992)⟩ e = true ∧
      users.keyFor? e = some (.keyed [.int 9007199254740991]) ∧
      (pages, [next]) ∈ (Level.keyed users).contributions ⟨⟨1⟩, "seen", [pages]⟩
        (.keyed [.int 9007199254740992]) ∧
      ¬ ∀ c ∈ [next], c.accepts e = true := by
  intro e users pages next
  have hfield : e.field "user" = .int 9007199254740991 := by decide
  have hkey : users.keyFor? e = some (.keyed [.int 9007199254740991]) := by decide
  have hnext : (pages, [next]) ∈ (Level.keyed users).contributions ⟨⟨1⟩, "seen", [pages]⟩
      (.keyed [.int 9007199254740992]) := by decide
  have hshort : OneShort 9007199254740991 9007199254740992 := by decide
  have hne : (9007199254740991 : Int64) ≠ 9007199254740992 := by decide
  obtain ⟨hequal, hlist, hrange⟩ := e.integer_constraints.1 "user" 9007199254740991 hfield
  refine ⟨Bool.eq_false_iff.2 fun h => hne ((hequal _).2 hshort h),
    Bool.eq_false_iff.2 fun h => ?_, (hrange _ _).1 hshort (by decide) (by decide), hkey, hnext,
    fun h => ?_⟩
  · exact hne (List.mem_singleton.1 ((hlist [9007199254740992]).2 (by simpa using hshort) h))
  · have hsame := (e.integer_constraints.2 users _ pages [next] [9007199254740991]
      [9007199254740992] hkey hnext rfl).2 (.cons hshort .nil) h
    exact hne (List.cons.inj hsame).1

/-- The first integer of 54 digits and the one after it share a binary number. -/
theorem Event.long_integers_run_together :
    let e : Event :=
      { type := "Page", data := OrderedMap.ofPairs [("user", .int 9007199254740992)] }
    let users : KeyedLevel := { name := "user", items := [⟨"Page", ["user"]⟩] }
    let pages : HeldFilter := ⟨0, { eventType := "Page" }⟩
    let next := Constraint.equal "user" (.int 9007199254740993)
    e.field "user" = .int 9007199254740992 ∧ next.accepts e = true ∧
      Constraint.accepts ⟨"user", .oneOf [.int 9007199254740993]⟩ e = true ∧
      Constraint.accepts ⟨"user", .range (.int 9007199254740993) (.int 9007199254740994)⟩ e = true ∧
      Constraint.accepts ⟨"user", .range (.int 9007199254740992) (.int 9007199254740993)⟩ e =
        false ∧
      users.keyFor? e = some (.keyed [.int 9007199254740992]) ∧
      (pages, [next]) ∈ (Level.keyed users).contributions ⟨⟨1⟩, "seen", [pages]⟩
        (.keyed [.int 9007199254740993]) := by
  decide +kernel

end EventContexts
