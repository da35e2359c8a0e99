import EventContexts.Filter

namespace EventContexts

/-- The third comparison is what the first two come to, unless one of these goes down. -/
def Chained (ab bc ac : Ordering) : Prop := ab ≠ .gt → bc ≠ .gt → ac = ab.then bc

section chained

variable {α : Type} {ab bc ac ab' bc' ac' : Ordering}

theorem Chained.then (h : Chained ab bc ac) (h' : Chained ab' bc' ac') :
    Chained (ab.then ab') (bc.then bc') (ac.then ac') := by
  intro hab hbc
  cases ab with
  | gt => exact absurd rfl hab
  | lt =>
      have hbc' : bc ≠ .gt := by
        rintro rfl
        exact hbc rfl
      rw [h (by decide) hbc']
      rfl
  | eq =>
      cases bc with
      | gt => exact absurd rfl hbc
      | lt =>
          rw [h (by decide) (by decide)]
          cases ab' with
          | gt => exact absurd rfl hab
          | _ => rfl
      | eq =>
          rw [h (by decide) (by decide)]
          exact h' hab hbc

theorem Chained.ne_gt (h : Chained ab bc ac) (hab : ab ≠ .gt) (hbc : bc ≠ .gt) : ac ≠ .gt := by
  rw [h hab hbc]
  cases ab with
  | eq => exact hbc
  | _ => exact hab

theorem chained_compare [Ord α] [Std.TransOrd α] [Std.LawfulEqOrd α] (a b c : α) :
    Chained (compare a b) (compare b c) (compare a c) := by
  intro hab hbc
  cases h : compare a b with
  | gt => exact absurd h hab
  | eq =>
      obtain rfl := Std.LawfulEqOrd.eq_of_compare h
      rfl
  | lt =>
      cases h' : compare b c with
      | gt => exact absurd h' hbc
      | eq =>
          obtain rfl := Std.LawfulEqOrd.eq_of_compare h'
          exact h
      | lt => exact Std.TransCmp.lt_trans h h'

theorem chained_of_rank (f : α → α → Ordering) (rank : α → Nat)
    (hlt : ∀ {a b}, rank a < rank b → f a b = .lt) (hle : ∀ {a b}, f a b ≠ .gt → rank a ≤ rank b)
    {a b c : α} (hsame : rank a = rank b → rank b = rank c → Chained (f a b) (f b c) (f a c)) :
    Chained (f a b) (f b c) (f a c) := by
  intro hab hbc
  rcases Nat.lt_or_eq_of_le (hle hab) with hlow | hlow
  · rw [hlt hlow, hlt (Nat.lt_of_lt_of_le hlow (hle hbc))]
    rfl
  · rcases Nat.lt_or_eq_of_le (hle hbc) with hhigh | hhigh
    · rw [hlt hhigh, hlt (hlow ▸ hhigh)]
      cases hf : f a b with
      | gt => exact absurd hf hab
      | _ => rfl
    · exact hsame hlow hhigh hab hbc

end chained

theorem Binary64.totalCompare_swap (x y : Binary64) :
    y.totalCompare x = (x.totalCompare y).swap :=
  Std.OrientedOrd.eq_swap

theorem Binary64.totalCompare_chained (x y z : Binary64) :
    Chained (x.totalCompare y) (y.totalCompare z) (x.totalCompare z) :=
  chained_compare _ _ _

namespace Value

variable {a b c : Value}

theorem cmp_of_rank_ne (h : a.rank ≠ b.rank) : cmp a b = compare a.rank b.rank := by
  cases a <;> cases b <;> first | rfl | exact absurd rfl h

theorem cmp_of_rank_lt (h : a.rank < b.rank) : cmp a b = .lt := by
  rw [cmp_of_rank_ne (Nat.ne_of_lt h)]
  exact Nat.compare_eq_lt.2 h

theorem rank_le_of_cmp (h : cmp a b ≠ .gt) : a.rank ≤ b.rank := by
  refine Nat.le_of_not_lt fun hlt => h ?_
  rw [cmp_of_rank_ne (Nat.ne_of_gt hlt)]
  exact Nat.compare_eq_gt.2 hlt

mutual

theorem cmp_swap : ∀ a b : Value, cmp b a = (cmp a b).swap
  | .null, b => by cases b <;> rfl
  | .bool a, b => by
      cases b with
      | bool b =>
          simp only [cmp]
          exact Std.OrientedCmp.eq_swap
      | _ => rfl
  | .int a, b => by
      cases b with
      | int b =>
          simp only [cmp]
          exact Std.OrientedCmp.eq_swap
      | _ => rfl
  | .float a, b => by
      cases b with
      | float b =>
          simp only [cmp]
          exact a.totalCompare_swap b
      | _ => rfl
  | .str a, b => by
      cases b with
      | str b =>
          simp only [cmp]
          exact Std.OrientedCmp.eq_swap
      | _ => rfl
  | .timestamp a, b => by
      cases b with
      | timestamp b =>
          simp only [cmp]
          exact Std.OrientedCmp.eq_swap
      | _ => rfl
  | .array as, b => by
      cases b with
      | array bs =>
          simp only [cmp]
          exact cmpItems_swap as bs
      | _ => rfl
  | .map as, b => by
      cases b with
      | map bs =>
          simp only [cmp]
          exact cmpEntries_swap as bs
      | _ => rfl

theorem cmpItems_swap : ∀ as bs : List Value, cmpItems bs as = (cmpItems as bs).swap
  | [], [] => rfl
  | [], _ :: _ => rfl
  | _ :: _, [] => rfl
  | a :: as, b :: bs => by
      rw [cmpItems, cmpItems, Ordering.swap_then, cmp_swap a b, cmpItems_swap as bs]

theorem cmpEntries_swap :
    ∀ as bs : List (String × Value), cmpEntries bs as = (cmpEntries as bs).swap
  | [], [] => rfl
  | [], _ :: _ => rfl
  | _ :: _, [] => rfl
  | (k, a) :: as, (l, b) :: bs => by
      have hkeys : compare l k = (compare k l).swap := Std.OrientedCmp.eq_swap
      rw [cmpEntries, cmpEntries, Ordering.swap_then, Ordering.swap_then, hkeys, cmp_swap a b,
        cmpEntries_swap as bs]

end

theorem cmp_chained_of_rank (hsame : a.rank = b.rank → b.rank = c.rank →
    Chained (cmp a b) (cmp b c) (cmp a c)) : Chained (cmp a b) (cmp b c) (cmp a c) :=
  chained_of_rank cmp rank cmp_of_rank_lt rank_le_of_cmp hsame

mutual

theorem cmp_chained : ∀ a b c : Value, Chained (cmp a b) (cmp b c) (cmp a c)
  | .null, b, c => cmp_chained_of_rank fun hab hbc => by
      cases b with
      | null =>
          cases c with
          | null =>
              intro _ _
              rfl
          | _ => cases hbc
      | _ => cases hab
  | .bool a, b, c => cmp_chained_of_rank fun hab hbc => by
      cases b with
      | bool b =>
          cases c with
          | bool c =>
              simp only [cmp]
              exact chained_compare _ _ _
          | _ => cases hbc
      | _ => cases hab
  | .int a, b, c => cmp_chained_of_rank fun hab hbc => by
      cases b with
      | int b =>
          cases c with
          | int c =>
              simp only [cmp]
              exact chained_compare _ _ _
          | _ => cases hbc
      | _ => cases hab
  | .float a, b, c => cmp_chained_of_rank fun hab hbc => by
      cases b with
      | float b =>
          cases c with
          | float c =>
              simp only [cmp]
              exact a.totalCompare_chained b c
          | _ => cases hbc
      | _ => cases hab
  | .str a, b, c => cmp_chained_of_rank fun hab hbc => by
      cases b with
      | str b =>
          cases c with
          | str c =>
              simp only [cmp]
              exact chained_compare _ _ _
          | _ => cases hbc
      | _ => cases hab
  | .timestamp a, b, c => cmp_chained_of_rank fun hab hbc => by
      cases b with
      | timestamp b =>
          cases c with
          | timestamp c =>
              simp only [cmp]
              exact chained_compare _ _ _
          | _ => cases hbc
      | _ => cases hab
  | .array as, b, c => cmp_chained_of_rank fun hab hbc => by
      cases b with
      | array bs =>
          cases c with
          | array cs =>
              simp only [cmp]
              exact cmpItems_chained as bs cs
          | _ => cases hbc
      | _ => cases hab
  | .map as, b, c => cmp_chained_of_rank fun hab hbc => by
      cases b with
      | map bs =>
          cases c with
          | map cs =>
              simp only [cmp]
              exact cmpEntries_chained as bs cs
          | _ => cases hbc
      | _ => cases hab

theorem cmpItems_chained :
    ∀ as bs cs : List Value, Chained (cmpItems as bs) (cmpItems bs cs) (cmpItems as cs)
  | [], bs, cs => by
      cases bs <;> cases cs <;> intro hab hbc <;> first | rfl | exact absurd rfl hbc
  | _ :: _, [], _ => fun h => absurd rfl h
  | _ :: _, _ :: _, [] => fun _ h => absurd rfl h
  | a :: as, b :: bs, c :: cs => (cmp_chained a b c).then (cmpItems_chained as bs cs)

theorem cmpEntries_chained : ∀ as bs cs : List (String × Value),
    Chained (cmpEntries as bs) (cmpEntries bs cs) (cmpEntries as cs)
  | [], bs, cs => by
      cases bs <;> cases cs <;> intro hab hbc <;> first | rfl | exact absurd rfl hbc
  | _ :: _, [], _ => fun h => absurd rfl h
  | _ :: _, _ :: _, [] => fun _ h => absurd rfl h
  | (k, a) :: as, (l, b) :: bs, (m, c) :: cs =>
      ((chained_compare k l m).then (cmp_chained a b c)).then (cmpEntries_chained as bs cs)

end

def tier : Value → Nat
  | .float _ => 2
  | v => v.rank

theorem isSome_asNumeric? : a.asNumeric?.isSome = true ↔ a.tier = 2 := by
  cases a <;> simp [asNumeric?, tier, rank]

theorem numericCmp_of_some {x y : Binary64} (ha : a.asNumeric? = some x)
    (hb : b.asNumeric? = some y) : numericCmp a b = x.totalCompare y := by
  rw [numericCmp, ha, hb]

theorem numericCmp_of_none (ha : a.asNumeric? = none) : numericCmp a b = cmp a b := by
  rw [numericCmp, ha]

theorem numericCmp_of_tier_lt (h : a.tier < b.tier) : numericCmp a b = .lt := by
  cases a <;> cases b <;> first | rfl | exact absurd h (by simp [tier, rank])

theorem numericCmp_swap (a b : Value) : numericCmp b a = (numericCmp a b).swap := by
  rw [numericCmp, numericCmp]
  cases a.asNumeric? with
  | none => cases b.asNumeric? <;> exact cmp_swap a b
  | some x =>
      cases b.asNumeric? with
      | none => exact cmp_swap a b
      | some y => exact x.totalCompare_swap y

theorem tier_le_of_numericCmp (h : numericCmp a b ≠ .gt) : a.tier ≤ b.tier := by
  refine Nat.le_of_not_lt fun hlt => h ?_
  rw [numericCmp_swap b a, numericCmp_of_tier_lt hlt]
  rfl

theorem numericCmp_chained (a b c : Value) :
    Chained (numericCmp a b) (numericCmp b c) (numericCmp a c) := by
  refine chained_of_rank numericCmp tier numericCmp_of_tier_lt tier_le_of_numericCmp ?_
  intro hab hbc
  cases ha : a.asNumeric? with
  | some x =>
      have htier : a.tier = 2 := isSome_asNumeric?.1 (Option.isSome_of_eq_some ha)
      obtain ⟨y, hb⟩ := Option.isSome_iff_exists.1 (isSome_asNumeric?.2 (hab ▸ htier))
      obtain ⟨z, hc⟩ := Option.isSome_iff_exists.1 (isSome_asNumeric?.2 (hbc ▸ hab ▸ htier))
      rw [numericCmp_of_some ha hb, numericCmp_of_some hb hc, numericCmp_of_some ha hc]
      exact x.totalCompare_chained y z
  | none =>
      have hb : b.asNumeric? = none := by
        refine Option.eq_none_iff_forall_ne_some.2 fun y hb => ?_
        have htier : b.tier = 2 := isSome_asNumeric?.1 (Option.isSome_of_eq_some hb)
        simpa [ha] using isSome_asNumeric?.2 (hab.trans htier)
      rw [numericCmp_of_none ha, numericCmp_of_none hb, numericCmp_of_none ha]
      exact cmp_chained a b c

theorem numericCmp_lt_of_lt (h : numericCmp a b = .lt) (h' : numericCmp b c ≠ .gt) :
    numericCmp a c = .lt := by
  rw [numericCmp_chained a b c (by simp [h]) h', h]
  rfl

/-- The order of keys is linear, its equality is identity, and what is identical has one hash and
falls into one bucket. -/
theorem cmp_linear (a b c : Value) :
    cmp b a = (cmp a b).swap ∧
      (cmp a b ≠ .gt → cmp b c ≠ .gt → cmp a c ≠ .gt) ∧
      (cmp a b = .eq ↔ a = b) ∧
      (cmp a b = .eq → a.hash = b.hash ∧ ∀ granularity, a.bucket granularity = b.bucket granularity)
    := by
  refine ⟨cmp_swap a b, (cmp_chained a b c).ne_gt, cmp_eq_iff, fun h => ?_⟩
  obtain rfl := cmp_eq_iff.1 h
  exact ⟨rfl, fun _ => rfl⟩

theorem cmp_linear_nested :
    let low := array [map [("k", float ⟨0x8000000000000000⟩)]]
    let mid := array [map [("k", float ⟨0⟩)], null]
    let high := map [("k", float Binary64.canonicalNaN)]
    cmp low mid ≠ .gt ∧ cmp mid high ≠ .gt ∧ cmp low high ≠ .gt ∧ cmp high high = .eq ∧
      high.hash = high.hash := by
  intro low mid high
  have hlow : cmp low mid ≠ .gt := by decide
  have hhigh : cmp mid high ≠ .gt := by decide
  have hself : cmp high high = .eq := by decide
  exact ⟨hlow, hhigh, (cmp_linear low mid high).2.1 hlow hhigh, hself,
    ((cmp_linear high high low).2.2.2 hself).1⟩

end Value

namespace Constraint

variable {p : String} {e : Event} {low mid high : Value}

theorem accepts_range : accepts ⟨p, .range low high⟩ e = true ↔
    (e.field p).isNull = false ∧ (e.field p).numericCmp low ≠ .lt ∧
      (e.field p).numericCmp high = .lt := by
  simp [accepts, Test.holds, and_assoc]

/-- Magnitudes are in one total order up to ties, and a range that is cut in two at a value between
its ends has each of its events in just one of the parts. -/
theorem ranges_tile (p : String) (e : Event) (low mid high : Value) :
    mid.numericCmp low = (low.numericCmp mid).swap ∧
      (low.numericCmp mid ≠ .gt → mid.numericCmp high ≠ .gt →
        low.numericCmp high ≠ .gt ∧
          (accepts ⟨p, .range low high⟩ e = true ↔
            accepts ⟨p, .range low mid⟩ e = true ∨ accepts ⟨p, .range mid high⟩ e = true)) ∧
      ¬ (accepts ⟨p, .range low mid⟩ e = true ∧ accepts ⟨p, .range mid high⟩ e = true) := by
  simp only [accepts_range]
  generalize e.field p = v
  refine ⟨Value.numericCmp_swap low mid, fun hlow hhigh => ⟨?_, ?_, ?_⟩, ?_⟩
  · exact (Value.numericCmp_chained low mid high).ne_gt hlow hhigh
  · rintro ⟨hnull, hv, hv'⟩
    by_cases hmid : v.numericCmp mid = .lt
    · exact .inl ⟨hnull, hv, hmid⟩
    · exact .inr ⟨hnull, hmid, hv'⟩
  · rintro (⟨hnull, hv, hmid⟩ | ⟨hnull, hmid, hv⟩)
    · exact ⟨hnull, hv, Value.numericCmp_lt_of_lt hmid hhigh⟩
    · exact ⟨hnull, fun hv' => hmid (Value.numericCmp_lt_of_lt hv' hlow), hv⟩
  · exact fun ⟨⟨_, _, hmid⟩, _, hmid', _⟩ => hmid' hmid

theorem ranges_tile_across_kinds :
    let low := .int 1
    let mid := .float ⟨0x3FF8000000000000⟩
    let high := .str "x"
    let e : Event :=
      { type := "Page", data := OrderedMap.empty.insert "load" (.float Binary64.canonicalNaN) }
    low.numericCmp mid ≠ .gt ∧ mid.numericCmp high ≠ .gt ∧
      accepts ⟨"load", .range mid high⟩ e = true ∧
      (accepts ⟨"load", .range low high⟩ e = true ↔
        accepts ⟨"load", .range low mid⟩ e = true ∨
          accepts ⟨"load", .range mid high⟩ e = true) := by
  intro low mid high e
  have hlow : low.numericCmp mid ≠ .gt := by decide +kernel
  have hhigh : mid.numericCmp high ≠ .gt := by decide
  exact ⟨hlow, hhigh, by decide, ((ranges_tile "load" e low mid high).2.1 hlow hhigh).2⟩

end Constraint

end EventContexts
