import EventContexts.Proofs.Conduct
/-!
Controllers move one child at a time. What is known of a controller together with what hangs under
it, and outlasts each single move, outlasts all that the controller does, whether it fails or not.
-/

namespace EventContexts

namespace Act

variable {σ μ α : Type} {P : σ → Prop} {E : Error → Prop}

abbrev Maintains (P : σ → Prop) (E : Error → Prop) (x : Act σ α) : Prop :=
  Triple P x (fun _ => P) fun e s => E e ∧ P s

theorem maintains_pure {a : α} : Maintains P E (pure a : Act σ α) := triple_pure fun _ h => h

theorem maintains_get_bind {f : σ → Act σ α} (h : ∀ s, P s → Maintains P E (f s)) :
    Maintains P E (get >>= f) :=
  triple_get_bind fun s hs => (h s hs).starting hs

theorem triple_forAll_told {f : α → Act σ Unit} {J : List α → σ → Prop} (xs : List α)
    (h : ∀ x rest, Triple (J (x :: rest)) (f x) (fun _ => J rest) fun e s => E e ∧ J rest s) :
    Triple (J xs) (forAll f xs) (fun _ => J []) fun e s => E e ∧ J [] s := by
  induction xs with
  | nil => exact triple_pure fun _ hs => hs
  | cons x rest ih =>
      intro s hs
      have hx := h x rest s hs
      rcases hfx : f x s with ⟨_ | _, s'⟩
      · rw [hfx] at hx
        have hrest := ih s' hx.2
        simp only [forAll, hfx]
        rcases hall : forAll f rest s' with ⟨_ | _, s''⟩
        · rw [hall] at hrest
          exact ⟨hx.1, hrest.2⟩
        · rw [hall] at hrest
          exact ⟨hx.1, hrest⟩
      · rw [hfx] at hx
        simp only [forAll, hfx]
        exact ih s' hx

end Act

open Act

variable {σ μ α : Type}

/-- What an operation hands down to the controllers: the one event that it offers, and nothing to
recreate if the occasion is plain. -/
structure Occasion where
  event : Option Event
  plain : Prop

structure Activation.Fits (a : Activation) (o : Occasion) : Prop where
  trigger : ∀ e ∈ a.trigger, o.event = some e
  recovered : o.plain → a.recovered = []

namespace Scheme

def Opens (o : Occasion) : Scheme → Key → UInt32 → Prop
  | .keyed c, key, path => key ∉ c.children.keys ∧ path = c.nextPath ∧
      (o.plain → ∃ e ∈ o.event, c.level.keyFor? e = some key)
  | .category c, key, path => key ∉ c.children.keys ∧ ∃ index item,
      c.level.items[index]? = some item ∧ key = .category item.label ∧ path = UInt32.ofNat index
  | .hash c, key, path => key ∉ c.children.keys ∧ ∃ bucket, c.maintains bucket = true ∧
      key = .hash bucket ∧ path = HashController.pathOf bucket ∧
        (o.plain → ∃ n ≤ c.level.granularity.toNatClampNeg, bucket = Int64.ofNat n)
  | .episode c, key, path => ∃ start, key = .episode start c.nextNumber ∧
      c.nextNumber.toNat < UInt32.size ∧ path = c.nextNumber.toUInt32 ∧
        (c.level.start = .now → c.children.entries = [])
  | .temporal c, key, path => c.child = none ∧ key = c.level.key ∧ path = 0

structure Asks (o : Occasion) (s : Scheme) (r : Request) : Prop where
  trigger : ∀ e ∈ r.trigger, o.event = some e
  assigned : o.plain → r.assigned = none
  recovered : o.plain → r.recovered.getD [] = []
  opens : s.Opens o r.key r.path

def started (key : Key) (h : Handle) : Scheme → Scheme
  | .keyed c => .keyed
      { c with nextPath := c.nextPath + 1, children := c.children.insert key h }
  | .category c => .category { c with children := c.children.insert key h }
  | .hash c => .hash { c with children := c.children.insert key h }
  | .episode c => .episode
      { c with nextNumber := c.nextNumber + 1, children := c.children.insert key h }
  | .temporal c => .temporal { c with child := some (key, h) }

def Ending : Scheme → Prop
  | .keyed _ | .category _ => False
  | .hash _ | .episode _ | .temporal _ => True

def ended (key : Key) : Scheme → Scheme
  | .keyed c => .keyed { c with children := c.children.erase key }
  | .category c => .category { c with children := c.children.erase key }
  | .hash c => .hash { c with children := c.children.erase key }
  | .episode c => .episode { c with children := c.children.erase key }
  | .temporal c => .temporal { c with finished := true, child := none }

inductive Notes (o : Occasion) : Scheme → Scheme → Prop where
  | clock (c : EpisodeController) (now : Int64) : Notes o (.episode c) (.episode { c with now })
  | recovered (c : TemporalController) (p : Option UInt32) (hp : o.plain → p = none) :
      Notes o (.temporal c) (.temporal { c with recovered := p })
  | finished (c : TemporalController) (hc : c.child = none) :
      Notes o (.temporal c) (.temporal { c with finished := true, child := none })

variable {o : Occasion} {s : Scheme} {r : Request} {x : Option Assignment}

theorem asks_recovering (htrigger : ∀ e ∈ r.trigger, o.event = some e)
    (hassigned : r.assigned = none) (hrecovered : r.recovered = none)
    (hx : o.plain → x = none) (hopens : s.Opens o r.key r.path) : s.Asks o (r.recovering x) where
  trigger := by rwa [Request.trigger_recovering]
  assigned h := by rw [hx h]; exact hassigned
  recovered h := by rw [hx h, Request.recovering, hrecovered]; rfl
  opens := by rwa [Request.key_recovering, Request.path_recovering]

end Scheme

/-- `K` of a controller and of what its children live in outlasts each of its moves, and these fail
only with `E`. -/
structure Lifecycle.Bears (life : Lifecycle σ) (o : Occasion) (K : Scheme → σ → Prop)
    (E : Error → Prop) : Prop where
  start : ∀ {s : Scheme} {r : Request}, s.Asks o r →
    Triple (K s) (life.start r) (fun h => K (s.started r.key h)) fun e t => E e ∧ K s t
  stop : ∀ {s : Scheme} {k : Key} {h : Handle}, s.Ending → (k, h) ∈ s.children.entries →
    Triple (K s) (life.stop h) (fun _ => K (s.ended k)) fun e t => E e ∧ K (s.ended k) t
  notes : ∀ {s s' : Scheme} {t : σ}, s.Notes o s' → K s t → K s' t
  plain : ∀ {c : TemporalController} {t : σ}, o.plain → K (.temporal c) t → c.recovered = none
  refuses : ∀ what, E (.unsupported what)

variable {life : Lifecycle σ} {o : Occasion} {K : Scheme → σ → Prop} {E : Error → Prop}
  {a : Activation} {e : Event}

abbrev Bearing (wrap : μ → Scheme) (K : Scheme → σ → Prop) (p : μ × σ) : Prop := K (wrap p.1) p.2

section

variable {w : μ → Scheme} {c : μ}

theorem Lifecycle.Bears.start_triple (hlife : life.Bears o K E) {f : Handle → μ → μ} {r : Request}
    (hr : (w c).Asks o r) (hf : ∀ h, w (f h c) = (w c).started r.key h) :
    Triple (fun p => p.1 = c ∧ K (w c) p.2)
      (second (life.start r) >>= fun h => first (modify (f h)))
      (fun _ p => (∃ h, p.1 = f h c) ∧ Bearing w K p)
      fun e p => E e ∧ p.1 = c ∧ Bearing w K p := by
  refine Triple.bind (Q := fun h p => p.1 = c ∧ K ((w c).started r.key h) p.2) ?_ fun h => ?_
  · refine Triple.second fun m s hs => (hlife.start hr s hs.2).imp (fun _ _ ht => ⟨hs.1, ht⟩) ?_
    rintro e t ⟨he, ht⟩
    obtain rfl : m = c := hs.1
    exact ⟨he, rfl, ht⟩
  · refine Triple.first fun s => triple_modify ?_
    rintro m ⟨rfl, ht⟩
    refine ⟨⟨h, rfl⟩, ?_⟩
    rw [← hf] at ht
    exact ht

theorem Lifecycle.Bears.stop_triple (hlife : life.Bears o K E) {f : μ → μ} {p : Key × Handle}
    (hending : (w c).Ending) (hp : p ∈ (w c).children.entries)
    (hf : w (f c) = (w c).ended p.1) :
    Triple (fun q => q.1 = c ∧ K (w c) q.2)
      (first (modify f) >>= fun _ => second (life.stop p.2))
      (fun _ q => q.1 = f c ∧ Bearing w K q)
      fun e q => E e ∧ q.1 = f c ∧ Bearing w K q := by
  refine Triple.bind (Q := fun _ q => q.1 = f c ∧ K (w c) q.2) ?_ fun _ => ?_
  · refine Triple.first fun s => triple_modify ?_
    rintro m ⟨rfl, ht⟩
    exact ⟨rfl, ht⟩
  · refine Triple.second fun m s hs => ?_
    obtain rfl : m = f c := hs.1
    have hstop := hlife.stop hending hp s hs.2
    rw [← hf] at hstop
    exact hstop.imp (fun _ _ ht => ⟨rfl, ht⟩) fun _ _ ht => ⟨ht.1, rfl, ht.2⟩

structure Outgoing (w : μ → Scheme) (K : Scheme → σ → Prop) (xs : List (Key × Handle))
    (p : μ × σ) : Prop where
  bearing : Bearing w K p
  ending : ∀ x ∈ xs, x ∈ (w p.1).children.entries
  distinct : (xs.map Prod.fst).Nodup

theorem outgoing_start {s : σ} {xs : List (Key × Handle)} (hK : K (w c) s)
    (hxs : xs.Sublist (w c).children.entries) : Outgoing w K xs (c, s) :=
  ⟨hK, fun _ hx => hxs.subset hx, (w c).children.nodup.sublist (hxs.map Prod.fst)⟩

theorem Lifecycle.Bears.stop_next (hlife : life.Bears o K E) {f : Key → μ → μ}
    (hending : ∀ c, (w c).Ending) (hf : ∀ key c, w (f key c) = (w c).ended key)
    (hkept : ∀ key c, (w (f key c)).children = (w c).children.erase key)
    (x : Key × Handle) (rest : List (Key × Handle)) :
    Triple (Outgoing w K (x :: rest))
      (first (modify (f x.1)) >>= fun _ => second (life.stop x.2))
      (fun _ => Outgoing w K rest) fun e p => E e ∧ Outgoing w K rest p := by
  rintro ⟨c, s⟩ h
  have hdone (p : μ × σ) (hp : p.1 = f x.1 c) (hK : Bearing w K p) : Outgoing w K rest p := by
    refine ⟨hK, fun y hy => ?_, (List.nodup_cons.1 h.distinct).2⟩
    rw [hp, hkept]
    exact OrderedMap.mem_erase_of_tail h.distinct hy (h.ending y (List.mem_cons_of_mem _ hy))
  exact ((hlife.stop_triple (hending c) (h.ending x (List.mem_cons_self ..)) (hf x.1 c)) (c, s)
    ⟨rfl, h.bearing⟩).imp (fun _ p hp => hdone p hp.1 hp.2)
      fun _ p hp => ⟨hp.1, hdone p hp.2.1 hp.2.2⟩

end

namespace KeyedController

variable {c : KeyedController} {s : σ}

theorem bears_start (hlife : life.Bears o K E) {key : Key} {trigger : Option Event}
    {recovered : Option Assignment} (hK : K (.keyed c) s)
    (htrigger : ∀ e ∈ trigger, o.event = some e) (hrecovered : o.plain → recovered = none)
    (hopens : (Scheme.keyed c).Opens o key c.nextPath) :
    Triple (fun p => p = (c, s)) (start life key trigger recovered)
      (fun _ => Bearing .keyed K) fun e p => E e ∧ Bearing .keyed K p := by
  refine triple_get_bind ?_
  rintro _ rfl
  refine ((hlife.start_triple (w := Scheme.keyed) (c := c) (f := fun h m => { m with
      nextPath := m.nextPath + 1, children := m.children.insert key h })
    (Scheme.asks_recovering htrigger rfl rfl hrecovered hopens) ?_).starting ⟨rfl, hK⟩).imp
      (fun _ h => h) (fun _ _ h => h.2) fun _ _ h => ⟨h.1, h.2.2⟩
  intro h
  rw [Request.key_recovering]
  rfl

theorem bears_route (hlife : life.Bears o K E) (he : o.event = some e) :
    Maintains (Bearing .keyed K) E (route life e) := by
  refine triple_get_bind fun (c, s) hK => ?_
  cases hkey : c.level.keyFor? e with
  | none =>
      simp only [hkey]
      exact triple_return hK
  | some key =>
      simp only [hkey]
      split
      · exact triple_return hK
      · next hfind =>
          refine Triple.bind (bears_start hlife hK ?_ (fun _ => rfl) ?_) fun _ => maintains_pure
          · rintro _ ⟨⟩
            exact he
          · exact ⟨OrderedMap.find?_eq_none.1 hfind, rfl, fun _ => ⟨e, he, hkey⟩⟩

theorem bears_activate (hlife : life.Bears o K E) (ha : a.Fits o) :
    Maintains (Bearing .keyed K) E (activate life a) := by
  refine Triple.bind (triple_forEach fun x hx => ?_) fun _ => ?_
  · have hbare : ¬ o.plain := fun h => List.ne_nil_of_mem hx (ha.recovered h)
    refine triple_get_bind fun (c, s) hK => ?_
    cases hkey : x.key with
    | keyed values =>
        simp only
        split
        · exact triple_return hK
        · next hnew =>
            refine bears_start hlife hK (by simp) (fun h => absurd h hbare) ?_
            rw [OrderedMap.contains_iff] at hnew
            exact ⟨hnew, rfl, fun h => absurd h hbare⟩
    | _ => exact triple_return hK
  · cases htrigger : a.trigger with
    | none => exact maintains_pure
    | some e => exact (bears_route hlife (ha.trigger e htrigger)).bind fun _ => maintains_pure

end KeyedController

namespace CategoryController

theorem bears_activate (hlife : life.Bears o K E) (ha : a.Fits o) :
    Maintains (Bearing .category K) E (activate life a) := by
  refine triple_get_bind fun (c, s) hK => ?_
  let P (p : CategoryController × σ) : Prop := p.1.level = c.level ∧ Bearing .category K p
  have hitem : ∀ item ∈ c.level.items.zipIdx, Maintains P E (startItem life a item) := by
    rintro ⟨i, index⟩ hi
    refine triple_get_bind ?_
    rintro ⟨c', s'⟩ ⟨hlevel, hK'⟩
    have hlevel : c'.level = c.level := hlevel
    simp only
    split
    · exact triple_return ⟨hlevel, hK'⟩
    · next hnew =>
        rw [OrderedMap.contains_iff] at hnew
        have hopens : (Scheme.category c').Opens o (.category i.label) (UInt32.ofNat index) :=
          ⟨hnew, index, i, hlevel ▸ List.mk_mem_zipIdx_iff_getElem?.1 hi, rfl, rfl⟩
        refine ((hlife.start_triple (w := Scheme.category) (c := c') (f := fun h m => { m with
            children := m.children.insert (.category i.label) h })
          (Scheme.asks_recovering ?_ rfl rfl ?_ hopens) ?_).starting ⟨rfl, hK'⟩).imp
            (fun _ h => h) ?_ ?_
        · exact fun e he => ha.trigger e (Option.mem_filter_iff.1 he).1
        · intro h
          rw [ha.recovered h]
          rfl
        · intro h
          rw [Request.key_recovering]
          rfl
        · rintro _ p ⟨⟨h, heq⟩, hK''⟩
          exact ⟨by rw [heq]; exact hlevel, hK''⟩
        · rintro _ p ⟨he, heq, hK''⟩
          exact ⟨he, by rw [heq]; exact hlevel, hK''⟩
  exact ((triple_forEach hitem).starting ⟨rfl, hK⟩).imp (fun _ h => h) (fun _ _ h => h.2)
    fun _ _ h => ⟨h.1, h.2.2⟩

end CategoryController

namespace HashController

variable {c : HashController} {s : σ} {hl : HashLevel}

abbrev Levelled (hl : HashLevel) (K : Scheme → σ → Prop) (p : HashController × σ) : Prop :=
  p.1.level = hl ∧ Bearing .hash K p

theorem bears_start (hlife : life.Bears o K E) {bucket : Int64} {trigger : Option Event}
    {recovered : Option Assignment} (hK : K (.hash c) s)
    (htrigger : ∀ e ∈ trigger, o.event = some e) (hrecovered : o.plain → recovered = none)
    (hmaintained : c.maintains bucket = true) (hnew : Key.hash bucket ∉ c.children.keys)
    (hbucket : o.plain → ∃ n ≤ c.level.granularity.toNatClampNeg, bucket = Int64.ofNat n) :
    Triple (fun p => p = (c, s)) (start life bucket trigger recovered)
      (fun _ => Levelled c.level K) fun e p => E e ∧ Levelled c.level K p := by
  have hopens : (Scheme.hash c).Opens o (.hash bucket) (pathOf bucket) :=
    ⟨hnew, bucket, hmaintained, rfl, rfl, hbucket⟩
  refine ((hlife.start_triple (w := Scheme.hash) (c := c) (f := fun h m => { m with
      children := m.children.insert (.hash bucket) h })
    (Scheme.asks_recovering htrigger rfl rfl hrecovered hopens) ?_).starting ⟨rfl, hK⟩).imp
      (fun _ h => h) ?_ ?_
  · intro h
    rw [Request.key_recovering]
    rfl
  · rintro _ p ⟨⟨h, heq⟩, hK'⟩
    exact ⟨by rw [heq], hK'⟩
  · rintro _ p ⟨he, heq, hK'⟩
    exact ⟨he, by rw [heq], hK'⟩

theorem bucketOf?_le {e : Event} {bucket : Int64} (h : hl.bucketOf? e = some bucket) :
    ∃ n ≤ hl.granularity.toNatClampNeg, bucket = Int64.ofNat n := by
  rw [HashLevel.bucketOf?] at h
  split at h
  · obtain rfl := Option.some.inj h
    rw [Value.bucket]
    split
    · exact ⟨0, Nat.zero_le _, rfl⟩
    · next hpos =>
        have hpos : 0 < hl.granularity.toNatClampNeg := by
          have hlt := Int64.lt_iff_toInt_lt.1 (Int64.not_le.1 hpos)
          rw [Int64.toInt_zero] at hlt
          exact Int.lt_toNat.2 hlt
        exact ⟨_, Nat.le_of_lt (Nat.mod_lt _ hpos), rfl⟩
  · cases h

theorem bears_route (hlife : life.Bears o K E) (he : o.event = some e) :
    Maintains (Bearing .hash K) E (route life e) := by
  refine triple_get_bind fun (c, s) hK => ?_
  cases hbucket : c.level.bucketOf? e with
  | none =>
      simp only [hbucket]
      exact triple_return hK
  | some bucket =>
      simp only [hbucket]
      split
      · next hmaintained =>
        split
        · exact triple_return hK
        · next hfind =>
            have hnew : Key.hash bucket ∉ c.children.keys := OrderedMap.find?_eq_none.1 hfind
            have hstart : Triple (fun p => p = (c, s)) (start life bucket (some e) none)
                (fun _ => Levelled c.level K) fun e p => E e ∧ Levelled c.level K p := by
              refine bears_start hlife hK ?_ (fun _ => rfl) hmaintained hnew
                fun _ => bucketOf?_le hbucket
              rintro _ ⟨⟩
              exact he
            exact (hstart.imp (fun _ h => h) (fun _ _ h => h.2) fun _ _ h => ⟨h.1, h.2.2⟩).bind
              fun _ => maintains_pure
      · exact triple_return hK

theorem maintained_and_new {bucket : Int64}
    (h : (c.maintains bucket && !c.children.contains (.hash bucket)) = true) :
    c.maintains bucket = true ∧ Key.hash bucket ∉ c.children.keys := by
  obtain ⟨hmaintained, hnew⟩ := Bool.and_eq_true_iff.1 h
  exact ⟨hmaintained, OrderedMap.contains_eq_false.1 (Bool.not_eq_true' _ ▸ hnew)⟩

theorem bears_preallocate (hlife : life.Bears o K E) (ha : a.Fits o) {count first : Nat}
    (hcount : first + count ≤ hl.granularity.toNatClampNeg) :
    Maintains (Levelled hl K) E (preallocate life a count first) := by
  induction count generalizing first with
  | zero => exact maintains_pure
  | succ count ih =>
      have hrest : Maintains (Levelled hl K) E (preallocate life a count (first + 1)) :=
        ih (by omega)
      refine triple_get_bind ?_
      rintro ⟨c, s⟩ ⟨rfl, hK⟩
      simp only
      split
      · next hc =>
          obtain ⟨hmaintained, hnew⟩ := maintained_and_new hc
          refine (bears_start hlife hK ?_ ?_ hmaintained hnew fun _ => ⟨first, by omega, rfl⟩).bind
            fun _ => hrest
          · exact fun e he => ha.trigger e (Option.mem_filter_iff.1 he).1
          · intro h
            rw [ha.recovered h]
            rfl
      · exact hrest.starting ⟨rfl, hK⟩

theorem bears_preallocateAll (hlife : life.Bears o K E) (ha : a.Fits o) :
    Maintains (Bearing .hash K) E (preallocateAll life a) := by
  refine triple_get_bind fun (c, s) hK => ?_
  exact ((bears_preallocate hlife ha (Nat.le_of_eq (Nat.zero_add _))).starting ⟨rfl, hK⟩).imp
    (fun _ h => h) (fun _ _ h => h.2) fun _ _ h => ⟨h.1, h.2.2⟩

theorem bears_recoverAll (hlife : life.Bears o K E) (ha : a.Fits o) :
    Maintains (Bearing .hash K) E (recoverAll life a) := by
  refine Triple.bind (triple_forEach fun x hx => ?_) fun _ => ?_
  · have hbare : ¬ o.plain := fun h => List.ne_nil_of_mem hx (ha.recovered h)
    refine triple_get_bind fun (c, s) hK => ?_
    cases hkey : x.key with
    | hash bucket =>
        simp only
        split
        · next hc =>
            obtain ⟨hmaintained, hnew⟩ := maintained_and_new hc
            exact (bears_start hlife hK (by simp) (fun h => absurd h hbare) hmaintained hnew
              fun h => absurd h hbare).imp (fun _ h => h) (fun _ _ h => h.2)
              fun _ _ h => ⟨h.1, h.2.2⟩
        · exact triple_return hK
    | _ => exact triple_return hK
  · cases htrigger : a.trigger with
    | none => exact maintains_pure
    | some e => exact (bears_route hlife (ha.trigger e htrigger)).bind fun _ => maintains_pure

theorem bears_activate (hlife : life.Bears o K E) (ha : a.Fits o) :
    Maintains (Bearing .hash K) E (activate life a) := by
  refine maintains_get_bind fun (c, s) _ => ?_
  simp only
  split
  · exact bears_preallocateAll hlife ha
  · exact bears_recoverAll hlife ha

theorem bears_endChild (hlife : life.Bears o K E) (x : Key × Handle) (rest : List (Key × Handle)) :
    Triple (Outgoing .hash K (x :: rest)) (endChild life x) (fun _ => Outgoing .hash K rest)
      fun e p => E e ∧ Outgoing .hash K rest p :=
  hlife.stop_next (w := Scheme.hash)
    (f := fun key c => { c with children := c.children.erase key })
    (fun _ => trivial) (fun _ _ => rfl) (fun _ _ => rfl) x rest

theorem bears_restrict (hlife : life.Bears o K E) (ranges : List BucketRange) :
    Triple (fun p => K (.hash { p.1 with ranges := some ranges }) p.2) (restrict life ranges)
      (fun _ => Bearing .hash K) fun e p => E e ∧ Bearing .hash K p := by
  refine Triple.bind (Q := fun _ => Bearing .hash K) ?_ fun _ => ?_
  · exact Triple.first fun s => triple_modify fun c hK => hK
  · refine triple_get_bind fun (c, s) hK => ?_
    have hstart : Outgoing .hash K c.outside (c, s) := outgoing_start hK List.filter_sublist
    refine Triple.bind ((triple_forAll_told c.outside (bears_endChild hlife)).starting
      hstart).attempt fun ended => ?_
    have hends (p : HashController × σ)
        (h : Ends (fun _ => Outgoing .hash K []) (fun e p => E e ∧ Outgoing .hash K [] p)
          (ended, p)) :
        (∀ e, ended = .error e → E e) ∧ Bearing .hash K p := by
      cases hended : ended with
      | ok u =>
          rw [hended] at h
          exact ⟨by simp, h.bearing⟩
      | error e =>
          rw [hended] at h
          refine ⟨?_, h.2.bearing⟩
          rintro _ ⟨⟩
          exact h.1
    have htell : Triple
        (fun p : HashController × σ => (∀ e, ended = .error e → E e) ∧ Bearing .hash K p)
        (Act.ofExcept ended) (fun _ => Bearing .hash K) fun e p => E e ∧ Bearing .hash K p :=
      triple_ofExcept (fun _ _ _ h => h.2) fun e _ he h => ⟨h.1 e he, h.2⟩
    have hgrow (hE : ∀ e, ended = .error e → E e) :
        Maintains (Bearing .hash K) E (preallocateAll life {}) :=
      bears_preallocateAll hlife ⟨by simp, fun _ => rfl⟩
    simp only
    split
    · rintro p hp
      obtain ⟨hE, hK'⟩ := hends p hp
      refine ((hgrow hE).bind fun _ => ?_) p hK'
      exact htell.imp (fun _ h => ⟨hE, h⟩) (fun _ _ h => h) fun _ _ h => h
    · exact htell.imp hends (fun _ _ h => h) fun _ _ h => h

end HashController

namespace EpisodeController

variable {c : EpisodeController} {s : σ}

theorem bears_startEpisode (hlife : life.Bears o K E) {start : Int64} {initiator : Option Event}
    (hK : K (.episode c) s) (hinitiator : ∀ e ∈ initiator, o.event = some e)
    (hnow : c.level.start = .now → c.children.entries = []) :
    Triple (fun p => p = (c, s)) (startEpisode life start initiator)
      (fun _ => Bearing .episode K) fun e p => E e ∧ Bearing .episode K p := by
  refine triple_get_bind ?_
  rintro _ rfl
  refine Triple.bind (Q := fun path p => c.nextPath? = .ok path ∧ p = (c, s)) ?_ fun path => ?_
  · refine triple_ofExcept (fun path p hpath hp => ⟨hpath, hp⟩) fun e p he hp => ?_
    rw [nextPath?] at he
    split at he
    · cases he
    · obtain rfl := Except.error.inj he
      rw [hp]
      exact ⟨hlife.refuses _, hK⟩
  · rintro _ ⟨hpath, rfl⟩
    have hopens : (Scheme.episode c).Opens o (.episode start c.nextNumber) path := by
      rw [nextPath?] at hpath
      split at hpath
      · next hlt => exact ⟨start, rfl, hlt, (Except.ok.inj hpath).symm, hnow⟩
      · cases hpath
    refine ((hlife.start_triple (w := Scheme.episode) (c := c) (f := fun h m => { m with
        nextNumber := m.nextNumber + 1
        children := m.children.insert (.episode start c.nextNumber) h })
      ⟨hinitiator, fun _ => rfl, fun _ => rfl, hopens⟩ fun _ => rfl) _ ⟨rfl, hK⟩).imp
        (fun _ _ h => h.2) fun _ _ h => ⟨h.1, h.2.2⟩

theorem bears_restartIfNow (hlife : life.Bears o K E) :
    Maintains (Bearing .episode K) E (restartIfNow life) := by
  refine triple_get_bind fun (c, s) hK => ?_
  simp only
  split
  · next h => exact bears_startEpisode hlife hK (by simp) fun _ => List.isEmpty_iff.1 h.2
  · exact triple_return hK

theorem bears_endEpisode (hlife : life.Bears o K E) (x : Key × Handle)
    (rest : List (Key × Handle)) :
    Triple (Outgoing .episode K (x :: rest)) (endEpisode life x)
      (fun _ => Outgoing .episode K rest) fun e p => E e ∧ Outgoing .episode K rest p :=
  hlife.stop_next (w := Scheme.episode)
    (f := fun key c => { c with children := c.children.erase key })
    (fun _ => trivial) (fun _ _ => rfl) (fun _ _ => rfl) x rest

theorem bears_endEpisodes (hlife : life.Bears o K E) {xs : List (Key × Handle)}
    (hxs : xs.Sublist c.children.entries) (hK : K (.episode c) s) :
    Triple (fun p => p = (c, s)) (Act.forAll (endEpisode life) xs)
      (fun _ => Bearing .episode K) fun e p => E e ∧ Bearing .episode K p := by
  have hstart : Outgoing .episode K xs (c, s) := outgoing_start hK hxs
  exact ((triple_forAll_told xs (bears_endEpisode hlife)).starting hstart).imp (fun _ h => h)
    (fun _ _ h => h.bearing) fun _ _ h => ⟨h.1, h.2.bearing⟩

theorem bears_activate (hlife : life.Bears o K E) (ha : a.Fits o) :
    Triple (fun p => p.1.children.entries = [] ∧ Bearing .episode K p) (activate life a)
      (fun _ => Bearing .episode K) fun e p => E e ∧ Bearing .episode K p := by
  refine Triple.bind (Q := fun _ p => p.1.children.entries = [] ∧ Bearing .episode K p) ?_
    fun _ => ?_
  · exact Triple.first fun s => triple_modify fun c h => ⟨h.1, hlife.notes (.clock c a.now) h.2⟩
  · refine triple_get_bind ?_
    rintro ⟨c, s⟩ ⟨hnone, hK⟩
    cases hstart : c.level.start with
    | now =>
        simp only [hstart]
        exact bears_startEpisode hlife hK ha.trigger fun _ => hnone
    | event pattern =>
        cases htrigger : a.trigger with
        | none =>
            simp only [hstart]
            exact triple_return hK
        | some e =>
            simp only [hstart]
            split
            · refine bears_startEpisode hlife hK ?_ fun _ => hnone
              rintro _ ⟨⟩
              exact ha.trigger e htrigger
            · exact triple_return hK

theorem bears_route (hlife : life.Bears o K E) (he : o.event = some e) :
    Maintains (Bearing .episode K) E (route life e) := by
  refine Triple.bind (Q := fun _ => Bearing .episode K) ?_ fun _ => ?_
  · refine triple_get_bind fun (c, s) hK => ?_
    simp only
    split
    · exact (bears_endEpisodes hlife (.refl _) hK).bind fun _ => bears_restartIfNow hlife
    · exact triple_return hK
  · refine triple_get_bind fun (c, s) hK => ?_
    have hvalues : Maintains (Bearing .episode K) E
        (get >>= fun p => pure p.1.children.values) :=
      maintains_get_bind fun _ _ => maintains_pure
    simp only
    split
    · next h =>
        refine Triple.bind (bears_startEpisode hlife hK ?_ fun hnow => ?_) fun _ => hvalues
        · rintro _ ⟨⟩
          exact he
        · rw [hnow] at h
          cases h.1
    · exact hvalues.starting hK

theorem bears_tick (hlife : life.Bears o K E) (now : Int64) :
    Maintains (Bearing .episode K) E (tick life now) := by
  refine Triple.bind (Q := fun _ => Bearing .episode K) ?_ fun _ => ?_
  · exact Triple.first fun s => triple_modify fun c h => hlife.notes (.clock c now) h
  · refine triple_get_bind fun (c, s) hK => ?_
    simp only
    split
    · exact triple_return hK
    · refine Triple.bind (bears_endEpisodes hlife List.filter_sublist hK) fun _ => ?_
      split
      · exact maintains_pure
      · exact bears_restartIfNow hlife

end EpisodeController

namespace TemporalController

variable {c : TemporalController} {s : σ}

theorem bears_finish (hlife : life.Bears o K E) :
    Maintains (Bearing .temporal K) E (finish life) := by
  refine triple_get_bind fun (c, s) hK => ?_
  cases hchild : c.child with
  | none =>
      simp only [hchild]
      rintro _ rfl
      exact hlife.notes (.finished c hchild) hK
  | some p =>
      simp only [hchild]
      have hmem : p ∈ (Scheme.temporal c).children.entries := by
        rw [children_some hchild]
        exact List.mem_singleton_self _
      exact ((hlife.stop_triple (w := Scheme.temporal) (c := c)
        (f := fun c => { c with finished := true, child := none }) trivial hmem rfl).starting
          ⟨rfl, hK⟩).imp (fun _ h => h) (fun _ _ h => h.2) fun _ _ h => ⟨h.1, h.2.2⟩

theorem bears_sync (hlife : life.Bears o K E) {now : Int64} {trigger : Option Event}
    (htrigger : ∀ e ∈ trigger, o.event = some e) :
    Maintains (Bearing .temporal K) E (sync life now trigger) := by
  refine triple_get_bind fun (c, s) hK => ?_
  simp only
  split
  · exact (bears_finish hlife).starting hK
  · split
    · next h =>
        have hnone : c.child = none := Option.isNone_iff_eq_none.1 h.2.1
        refine Triple.bind (Q := fun _ p => p.1 = { c with recovered := none } ∧
          K (.temporal { c with recovered := none }) p.2) ?_ fun _ => ?_
        · rintro _ rfl
          exact ⟨rfl, hlife.notes (.recovered c none fun _ => rfl) hK⟩
        · exact (hlife.start_triple (w := Scheme.temporal) (c := { c with recovered := none })
            (f := fun h m => { m with child := some (c.level.key, h) })
            ⟨htrigger, fun hp => hlife.plain hp hK, fun _ => rfl, hnone, rfl, rfl⟩
            fun _ => rfl).imp (fun _ h => h) (fun _ _ h => h.2) fun _ _ h => ⟨h.1, h.2.2⟩
    · exact triple_return hK

theorem bears_activate (hlife : life.Bears o K E) (ha : a.Fits o) :
    Maintains (Bearing .temporal K) E (activate life a) := by
  refine Triple.bind (Q := fun _ => Bearing .temporal K) ?_ fun _ => bears_sync hlife ha.trigger
  refine Triple.first fun s => triple_modify fun c hK =>
    hlife.notes (.recovered c _ fun hp => ?_) hK
  rw [ha.recovered hp]
  rfl

end TemporalController

namespace Scheme

variable {s : Scheme} {t : σ}

theorem bears_lift {wrap : μ → Scheme} {x : Act (μ × σ) α} {c : μ}
    (h : Ends (fun _ => Bearing wrap K) (fun e p => E e ∧ Bearing wrap K p) (x (c, t))) :
    Triple (fun p => p = (s, t)) (lift wrap x c) (fun _ p => K p.1 p.2)
      fun e p => E e ∧ K p.1 p.2 :=
  lift_triple h

variable (hlife : life.Bears o K E)

include hlife

theorem bears_activate (ha : a.Fits o) (l : Level) :
    Triple (fun p => p.1 = ofLevel l ∧ K p.1 p.2) (activate life a) (fun _ p => K p.1 p.2)
      fun e p => E e ∧ K p.1 p.2 := by
  refine triple_get_bind ?_
  rintro ⟨_, t⟩ ⟨rfl, hK⟩
  cases l with
  | keyed l => exact bears_lift (KeyedController.bears_activate hlife ha (⟨l, .empty, 0⟩, t) hK)
  | category l => exact bears_lift (CategoryController.bears_activate hlife ha (⟨l, .empty⟩, t) hK)
  | hash l => exact bears_lift (HashController.bears_activate hlife ha (⟨l, .empty, none⟩, t) hK)
  | episode l =>
      exact bears_lift (EpisodeController.bears_activate hlife ha (⟨l, .empty, 0, 0⟩, t) ⟨rfl, hK⟩)
  | temporal l =>
      exact bears_lift (TemporalController.bears_activate hlife ha (⟨l, none, false, none⟩, t) hK)

theorem bears_route (he : o.event = some e) :
    Maintains (fun p => K p.1 p.2) E (route life e) := by
  refine triple_get_bind fun (s, t) hK => ?_
  cases s with
  | keyed c => exact bears_lift (KeyedController.bears_route hlife he (c, t) hK)
  | hash c => exact bears_lift (HashController.bears_route hlife he (c, t) hK)
  | episode c => exact bears_lift (EpisodeController.bears_route hlife he (c, t) hK)
  | category c => exact triple_return hK
  | temporal c => exact triple_return hK

theorem bears_tick (now : Int64) : Maintains (fun p => K p.1 p.2) E (tick life now) := by
  refine triple_get_bind fun (s, t) hK => ?_
  cases s with
  | episode c => exact bears_lift (EpisodeController.bears_tick hlife now (c, t) hK)
  | temporal c => exact bears_lift (TemporalController.bears_sync hlife (by simp) (c, t) hK)
  | _ => exact triple_return hK

def confined (ranges : List BucketRange) : Scheme → Scheme
  | .hash c => .hash { c with ranges := some ranges }
  | s => s

theorem bears_restrict (ranges : List BucketRange) :
    Triple (fun p => K (p.1.confined ranges) p.2) (restrict life ranges) (fun _ p => K p.1 p.2)
      fun e p => E e ∧ K p.1 p.2 := by
  refine triple_get_bind fun (s, t) hK => ?_
  cases s with
  | hash c => exact bears_lift (HashController.bears_restrict hlife ranges (c, t) hK)
  | _ =>
      apply triple_fail
      rintro _ rfl
      exact ⟨hlife.refuses _, hK⟩

end Scheme

namespace Controller

variable {c : Controller} {t : σ}

abbrev Bearing (c : Controller) (K : Scheme → σ → Prop) (p : Controller × σ) : Prop :=
  p.1 = { c with scheme := p.1.scheme } ∧ K p.1.scheme p.2

theorem bears_run {x : Act (Scheme × σ) α}
    (h : Ends (fun _ p => K p.1 p.2) (fun e p => E e ∧ K p.1 p.2) (x (c.scheme, t))) :
    Ends (fun _ => c.Bearing K) (fun e p => E e ∧ c.Bearing K p) (run x (c, t)) :=
  run_ends (h.imp (fun _ _ hK => ⟨rfl, hK⟩) fun _ _ hK => ⟨hK.1, rfl, hK.2⟩)

end Controller

end EventContexts
