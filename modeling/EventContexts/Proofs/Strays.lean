import EventContexts.Proofs.Inheritance

namespace EventContexts

open Act

variable {l : Level} {a : Activation} {e : Event} {key : Key}

/-- Has the form of the keys that the level routes events by. -/
def Level.Fits : Level → Key → Prop
  | .keyed l, key => ∃ values : List Value, key = .keyed values ∧ values.length = l.arity
  | .category l, key => ∃ i ∈ l.items, key = .category i.label
  | .hash l, key => ∃ bucket, key = .hash bucket ∧ 0 ≤ bucket ∧ bucket < l.granularity
  | .episode _, _ => True
  | .temporal _, _ => True

theorem KeyedLevel.length_properties {l : KeyedLevel} (h : l.flaw? = none) {i : KeyedItem}
    (hi : i ∈ l.items) : i.properties.length = l.arity := by
  rw [flaw?] at h
  cases hitems : l.items with
  | nil => simp [hitems] at hi
  | cons first rest =>
      simp only [hitems] at h
      split at h
      · cases h
      · have heven := List.find?_eq_none.1 (Option.map_eq_none_iff.1 h) i (hitems ▸ hi)
        simpa [arity, hitems] using heven

namespace HashLevel

variable {l : HashLevel}

theorem granularity_pos (h : l.flaw? = none) : 0 < l.granularity := by
  rw [flaw?] at h
  split at h
  · cases h
  · next hflaw => exact Int64.not_le.1 (not_or.1 hflaw).1

theorem fits_ofNat {n : Nat} (hn : n < l.granularity.toNatClampNeg) :
    (Level.hash l).Fits (.hash (Int64.ofNat n)) := by
  have hbound : l.granularity.toNatClampNeg < 2 ^ 63 := by
    have hlt := Int64.toInt_lt l.granularity
    have htoNat : l.granularity.toNatClampNeg = l.granularity.toInt.toNat := rfl
    omega
  refine ⟨_, rfl, ?_, ?_⟩
  · rw [Int64.le_iff_toInt_le, Int64.toInt_ofNat_of_lt (by omega)]
    simp
  · rw [Int64.lt_iff_toInt_lt, Int64.toInt_ofNat_of_lt (by omega)]
    exact Int.lt_toNat.1 hn

theorem bucketOf?_lt (h : l.flaw? = none) {bucket : Int64} (hbucket : l.bucketOf? e = some bucket) :
    ∃ n < l.granularity.toNatClampNeg, bucket = Int64.ofNat n := by
  have hpos := granularity_pos h
  rw [bucketOf?] at hbucket
  split at hbucket
  · obtain rfl := Option.some.inj hbucket
    rw [Value.bucket, if_neg (Int64.not_le.2 hpos)]
    have hlt := Int64.lt_iff_toInt_lt.1 hpos
    rw [Int64.toInt_zero] at hlt
    exact ⟨_, Nat.mod_lt _ (Int.lt_toNat.2 hlt), rfl⟩
  · cases hbucket

end HashLevel

namespace Level

theorem fits_of_routes (hl : l.flaw? = none) (h : l.Routes e key) : l.Fits key := by
  cases l with
  | keyed l =>
      obtain ⟨i, hi, rfl⟩ := Option.map_eq_some_iff.1 h
      refine ⟨_, rfl, ?_⟩
      rw [KeyedLevel.keyOf, List.length_map]
      exact KeyedLevel.length_properties hl (List.mem_of_find?_eq_some hi)
  | category l =>
      obtain ⟨i, hi, rfl, -⟩ := h
      exact ⟨i, hi, rfl⟩
  | hash l =>
      obtain ⟨bucket, rfl, hbucket⟩ := h
      obtain ⟨n, hn, rfl⟩ := HashLevel.bucketOf?_lt hl hbucket
      exact HashLevel.fits_ofNat hn
  | _ => trivial

theorem fits_of_eager {now : Int64} {keys : List Key} (hkeys : l.eagerKeys? now = some keys)
    (h : key ∈ keys) : l.Fits key := by
  cases l with
  | keyed l => cases hkeys
  | category l =>
      obtain rfl := Option.some.inj hkeys
      obtain ⟨i, hi, rfl⟩ := List.mem_map.1 h
      exact ⟨i, hi, rfl⟩
  | hash l =>
      rw [eagerKeys?] at hkeys
      split at hkeys
      · obtain rfl := Option.some.inj hkeys
        obtain ⟨n, hn, rfl⟩ := List.mem_map.1 h
        exact HashLevel.fits_ofNat (List.mem_range.1 hn)
      · cases hkeys
  | _ => trivial

theorem Calls.fits (h : l.Calls a key) (hl : l.flaw? = none) :
    l.Fits key ∨ l.Lazy ∧ key ∈ a.recovered.map Assignment.key := by
  cases h with
  | routed he hroutes => exact .inl (fits_of_routes hl hroutes)
  | eager hkeys hkey => exact .inl (fits_of_eager hkeys hkey)
  | listed hlazy hkey => exact .inr ⟨hlazy, hkey⟩
  | episode hkind =>
      cases l with
      | episode l => exact .inl trivial
      | _ => cases hkind

end Level

def Assignment.Fitting : List Level → List Assignment → Prop
  | [], _ => True
  | l :: below, xs => ∀ x ∈ xs, l.Fits x.key ∧ Fitting below x.children

section fitting

variable {levels : List Level} {xs : List Assignment} {x : Assignment}

theorem Assignment.fitting_nil : Fitting levels [] := by
  cases levels with
  | nil => trivial
  | cons l below => simp [Fitting]

theorem Assignment.Fitting.bequest (h : Fitting (l :: levels) xs) :
    Fitting levels ((l.bequest xs key).2.getD []) := by
  have hgiven : (l.bequest xs key).2 = none ∨ ∃ x ∈ xs, (l.bequest xs key).2 = some x.children := by
    cases hx : Assignment.find? xs key with
    | none => cases l <;> simp [Level.bequest, hx]
    | some x =>
        have hmem : x ∈ xs := List.mem_of_find?_eq_some hx
        cases l with
        | episode l => exact .inl rfl
        | temporal l => exact .inl rfl
        | _ => exact .inr ⟨x, hmem, by simp [Level.bequest, hx]⟩
  rcases hgiven with hnone | ⟨x, hx, hsome⟩
  · rw [hnone]
    exact fitting_nil
  · rw [hsome]
    exact (h x hx).2

theorem Assignment.Fitting.estate {path : Path} (h : Fitting levels xs)
    (hdeclared : path.map Step.level ++ [l] <+: levels) (hx : x ∈ path.estate xs) :
    l.Fits x.key := by
  induction path generalizing levels xs with
  | nil =>
      obtain ⟨below, rfl⟩ := hdeclared
      exact (h x hx).1
  | cons step path ih =>
      cases levels with
      | nil => simp at hdeclared
      | cons m levels =>
          obtain ⟨rfl, hbelow⟩ := List.cons_prefix_cons.1 hdeclared
          rw [Path.estate_cons] at hx
          exact ih h.bequest hbelow hx

end fitting

namespace Context

variable {c : Context} {runtime : Runtime} {s : Statement}

/-- A child of a context that has just come to life has a key that fits its level, unless the level
starts no child by itself and the assignments that came down to its controller have the very key. So
all keys fit where those of the assignments do. -/
theorem strays_are_listed (hroot : c.root = none) (hok : (attach runtime s c).1 = .ok ())
    {path : Path} {step : Step} (hlive : (path, step) ∈ (attach runtime s c).2.steps) :
    (step.level.Fits step.key ∨ step.level.Lazy ∧
      step.key ∈ (path.estate (c.recovery.getD [])).map Assignment.key) ∧
    (Assignment.Fitting c.declaration.levels (c.recovery.getD []) → step.level.Fits step.key) := by
  obtain ⟨hdeclared, a, ha, hcalls⟩ := (attach_inherits hroot hok).2 _ hlive
  have hsound : step.level.flaw? = none :=
    c.declaration.sound _ (hdeclared.subset (List.mem_append_right _ (List.mem_singleton_self _)))
  have hfits := hcalls.fits hsound
  rw [ha] at hfits
  refine ⟨hfits, fun hfitting => hfits.elim id ?_⟩
  rintro ⟨-, hlisted⟩
  obtain ⟨x, hx, hkey⟩ := List.mem_map.1 hlisted
  rw [← hkey]
  exact hfitting.estate hdeclared hx

theorem returning_fitting : Assignment.Fitting baskets.levels returning := by
  intro x hx
  obtain rfl := List.mem_singleton.1 hx
  refine ⟨⟨[.int 1], rfl, rfl⟩, fun y hy => ?_⟩
  obtain rfl := List.mem_singleton.1 hy
  exact ⟨⟨2, rfl, by decide, by decide⟩, trivial⟩

theorem returning_fits :
    let c := Context.new baskets {} none (some returning)
    (attach .collecting seen c).1 = .ok () ∧
      ∃ t ∈ (attach .collecting seen c).2.steps, t.2.key = .hash 2 ∧ t.2.level.Fits t.2.key := by
  intro c
  have hok : (attach .collecting seen c).1 = .ok () := by decide +kernel
  have hkey : .hash 2 ∈ (attach .collecting seen c).2.steps.map fun t => t.2.key := by
    decide +kernel
  obtain ⟨⟨path, step⟩, hlive, hkey⟩ := List.mem_map.1 hkey
  exact ⟨hok, (path, step), hlive, hkey, (strays_are_listed rfl hok hlive).2 returning_fitting⟩

def strays : List Assignment :=
  [{ key := .keyed [.int 1]
     children :=
       [{ key := .hash 7, partition := some 0 }, { key := .hash (-1), partition := some 1 }] },
   { key := .keyed [.int 1, .int 2] }]

theorem strays_come_to_life :
    let c := Context.new baskets {} none (some strays)
    (attach .collecting seen c).1 = .ok () ∧
      ∀ key ∈ [Key.keyed [.int 1, .int 2], .hash 7, .hash (-1)],
        ∃ t ∈ (attach .collecting seen c).2.steps, t.2.key = key ∧ ¬ t.2.level.Fits t.2.key := by
  intro c
  refine ⟨by decide +kernel, fun key hkey => ?_⟩
  have hlive (l : Level) (key : Key) (hstray : ¬ l.Fits key)
      (hmem : (l, key) ∈ (attach .collecting seen c).2.steps.map fun t => (t.2.level, t.2.key)) :
      ∃ t ∈ (attach .collecting seen c).2.steps, t.2.key = key ∧ ¬ t.2.level.Fits t.2.key := by
    obtain ⟨t, ht, heq⟩ := List.mem_map.1 hmem
    obtain ⟨rfl, rfl⟩ := Prod.mk.inj heq
    exact ⟨t, ht, rfl, hstray⟩
  have hbucket (bucket : Int64) (hoff : ¬ (0 ≤ bucket ∧ bucket < 4)) :
      ¬ (Level.hash { name := "basket", eventType := "Page", property := "item"
                      granularity := 4 }).Fits (.hash bucket) := by
    rintro ⟨_, ⟨⟩, hin⟩
    exact hoff hin
  simp only [List.mem_cons, List.not_mem_nil, or_false] at hkey
  rcases hkey with rfl | rfl | rfl
  · refine hlive baskets.outer _ ?_ (by decide +kernel)
    rintro ⟨_, ⟨⟩, hlength⟩
    cases hlength
  · exact hlive _ _ (hbucket 7 (by decide)) (by decide +kernel)
  · exact hlive _ _ (hbucket (-1) (by decide)) (by decide +kernel)

end Context

end EventContexts
