import EventContexts.Proofs.Conduct

namespace EventContexts

open Act

variable {σ μ α : Type} {life : Lifecycle σ} {J : List Request → σ → Prop} {E : Error → σ → Prop}

def Request.assignment (r : Request) : Assignment :=
  { key := r.key, partition := r.assigned, children := r.recovered.getD [] }

theorem Request.assignment_recovering {r : Request} {x : Assignment} (h : r.key = x.key) :
    (r.recovering (some x)).assignment = x := by
  cases x
  simp only [assignment, recovering, Option.getD_some, h]

namespace Act

theorem forEach_starts {f : α → Act (μ × σ) Unit} {C : List α → μ → Prop}
    (requests : μ → List α → List Request)
    (hstart : ∀ r rest, Triple (J (r :: rest)) (life.start r) (fun _ => J rest) E)
    (hdone : ∀ c, requests c [] = [])
    (hround : ∀ x rest c s, C (x :: rest) c →
      ∃ (r : Request) (more : List Request) (g : Handle → μ → μ),
        requests c (x :: rest) = r :: more ∧
        (∀ h, requests (g h c) rest = more ∧ C rest (g h c)) ∧
        f x (c, s) = (second (life.start r) >>= fun h => first (modify (g h))) (c, s))
    {xs : List α} {c : μ} {s : σ} (hC : C xs c) (hJ : J (requests c xs) s) :
    Ends (fun _ p => C [] p.1 ∧ J [] p.2) (fun e p => E e p.2) (forEach f xs (c, s)) := by
  induction xs generalizing c s with
  | nil => exact ⟨hC, hdone c ▸ hJ⟩
  | cons x rest ih =>
      obtain ⟨r, more, g, hrequests, hnext, hx⟩ := hround x rest c s hC
      rw [hrequests] at hJ
      have hfirst : Ends (fun _ (p : μ × σ) => C rest p.1 ∧ J (requests p.1 rest) p.2)
          (fun e p => E e p.2) (f x (c, s)) := by
        rw [hx]
        refine ends_second_first ((hstart r more s hJ).imp (fun h t ht => ?_) fun _ _ he => he)
        obtain ⟨hmore, hrest⟩ := hnext h
        exact ⟨hrest, hmore ▸ ht⟩
      have hloop : Triple (fun p => p = (c, s)) (forEach f (x :: rest))
          (fun _ p => C [] p.1 ∧ J [] p.2) (fun e p => E e p.2) := by
        refine Triple.bind (Q := fun _ p => C rest p.1 ∧ J (requests p.1 rest) p.2) ?_ ?_
        · rintro _ rfl
          exact hfirst
        · rintro - ⟨c', s'⟩ ⟨hC', hJ'⟩
          exact ih hC' hJ'
      exact hloop (c, s) rfl

end Act

namespace KeyedController

def replay (l : KeyedLevel) : UInt32 → List Assignment → List Request
  | _, [] => []
  | path, x :: rest =>
      Request.recovering
        { path, key := x.key, properties := (Level.keyed l).propertiesOf x.key .empty } (some x) ::
      replay l (path + 1) rest

theorem activate_replays {kl : KeyedLevel}
    (hstart : ∀ r rest, Triple (J (r :: rest)) (life.start r) (fun _ => J rest) E)
    {a : Activation} (htrigger : a.trigger = none)
    (hkeys : ∀ x ∈ a.recovered, ∃ values, x.key = .keyed values)
    (hdistinct : (a.recovered.map Assignment.key).Nodup) {s : σ}
    (hJ : J (replay kl 0 a.recovered) s) :
    Ends (fun _ p => p.1.level = kl ∧ J [] p.2) (fun e p => E e p.2)
      (activate life a ({ level := kl }, s)) := by
  let C (xs : List Assignment) (c : KeyedController) : Prop :=
    c.level = kl ∧ (∀ x ∈ xs, ∃ values, x.key = .keyed values) ∧
      (xs.map Assignment.key).Nodup ∧ ∀ x ∈ xs, x.key ∉ c.children.keys
  have hC : C a.recovered { level := kl } := ⟨rfl, hkeys, hdistinct, by simp⟩
  have hloop : Ends (fun _ (p : KeyedController × σ) => C [] p.1 ∧ J [] p.2) (fun e p => E e p.2)
      (forEach (recover life) a.recovered ({ level := kl }, s)) := by
    refine forEach_starts (fun c xs => replay kl c.nextPath xs) hstart (fun _ => rfl)
      ?_ hC hJ
    rintro x rest c s ⟨rfl, hkeys, hdistinct, hnew⟩
    obtain ⟨⟨values, hvalues⟩, hkeys⟩ := List.forall_mem_cons.1 hkeys
    obtain ⟨hx, hnew⟩ := List.forall_mem_cons.1 hnew
    obtain ⟨hfresh, hdistinct⟩ := List.nodup_cons.1 hdistinct
    have hcontains : c.children.contains x.key = false := OrderedMap.contains_eq_false.2 hx
    refine ⟨_, _, fun h c => { c with nextPath := c.nextPath + 1
                                      children := c.children.insert x.key h }, rfl,
      fun h => ⟨rfl, rfl, hkeys, hdistinct, fun y hy => ?_⟩, ?_⟩
    · have hne : y.key ≠ x.key := fun heq => hfresh (heq ▸ List.mem_map_of_mem hy)
      exact OrderedMap.not_mem_keys_insert hne (hnew y hy)
    · have hrecover : recover life x (c, s) = start life x.key none (some x) (c, s) := by
        rw [hvalues] at hcontains ⊢
        simp [recover, bind_apply, Act.get, hvalues, hcontains]
      rw [hrecover]
      rfl
  refine Triple.bind (P := fun p => p = ({ level := kl }, s))
    (Q := fun _ p => p.1.level = kl ∧ J [] p.2) ?_ (fun _ => ?_) _ rfl
  · rintro _ rfl
    exact hloop.imp (fun _ _ h => ⟨h.1.1, h.2⟩) fun _ _ h => h
  · rw [htrigger]
    exact triple_pure fun _ h => h

end KeyedController

namespace CategoryController

def replay (l : CategoryLevel) (xs : List Assignment) (items : List (CategoryItem × Nat)) :
    List Request :=
  items.map fun (i, index) => Request.recovering
    { path := UInt32.ofNat index, key := .category i.label
      properties := (Level.category l).propertiesOf (.category i.label) .empty }
    (Assignment.find? xs (.category i.label))

theorem activate_replays {cl : CategoryLevel}
    (hstart : ∀ r rest, Triple (J (r :: rest)) (life.start r) (fun _ => J rest) E)
    {a : Activation} (htrigger : a.trigger = none)
    (hlabels : (cl.items.map CategoryItem.label).Nodup) {s : σ}
    (hJ : J (replay cl a.recovered cl.items.zipIdx) s) :
    Ends (fun _ p => p.1.level = cl ∧ J [] p.2) (fun e p => E e p.2)
      (activate life a ({ level := cl }, s)) := by
  let C (items : List (CategoryItem × Nat)) (c : CategoryController) : Prop :=
    c.level = cl ∧ (items.map fun i => i.1.label).Nodup ∧
      ∀ i ∈ items, .category i.1.label ∉ c.children.keys
  have hC : C cl.items.zipIdx { level := cl } := by
    refine ⟨rfl, ?_, by simp⟩
    have hzip : (cl.items.zipIdx.map Prod.fst).map CategoryItem.label =
        cl.items.map CategoryItem.label := by rw [List.zipIdx_map_fst]
    rw [List.map_map] at hzip
    exact hzip ▸ hlabels
  have hloop : Ends (fun _ (p : CategoryController × σ) => C [] p.1 ∧ J [] p.2)
      (fun e p => E e p.2)
      (forEach (startItem life a) cl.items.zipIdx ({ level := cl }, s)) := by
    refine forEach_starts (fun _ items => replay cl a.recovered items) hstart
      (fun _ => rfl) ?_ hC hJ
    rintro ⟨i, index⟩ rest c s ⟨rfl, hlabels, hnew⟩
    obtain ⟨hi, hnew⟩ := List.forall_mem_cons.1 hnew
    obtain ⟨hfresh, hlabels⟩ := List.nodup_cons.1 hlabels
    have hcontains : c.children.contains (.category i.label) = false :=
      OrderedMap.contains_eq_false.2 hi
    refine ⟨_, replay c.level a.recovered rest, fun h c => { c with
      children := c.children.insert (.category i.label) h }, rfl,
      fun h => ⟨rfl, rfl, hlabels, fun j hj => ?_⟩, ?_⟩
    · have hne : Key.category j.1.label ≠ .category i.label :=
        fun heq => hfresh (List.mem_map.2 ⟨j, hj, Key.category.inj heq⟩)
      exact OrderedMap.not_mem_keys_insert hne (hnew j hj)
    · simp [startItem, bind_apply, Act.get, hcontains, htrigger]
  exact hloop.imp (fun _ _ h => ⟨h.1.1, h.2⟩) fun _ _ h => h

end CategoryController

namespace HashController

def recreation (bucket : Int64) (x? : Option Assignment) : Request :=
  Request.recovering { path := pathOf bucket, key := .hash bucket } x?

def recreation? (x : Assignment) : Option Request :=
  match x.key with
  | .hash bucket => some (recreation bucket (some x))
  | _ => none

def replay (xs : List Assignment) : List Request := xs.filterMap recreation?

def replayAll (xs : List Assignment) (count first : Nat) : List Request :=
  (List.range' first count).map fun i =>
    recreation (Int64.ofNat i) (Assignment.find? xs (.hash (Int64.ofNat i)))

theorem recoverAll_replays {hl : HashLevel}
    (hstart : ∀ r rest, Triple (J (r :: rest)) (life.start r) (fun _ => J rest) E)
    {a : Activation} (htrigger : a.trigger = none)
    (hkeys : ∀ x ∈ a.recovered, ∃ bucket, x.key = .hash bucket)
    (hdistinct : (a.recovered.map Assignment.key).Nodup) {s : σ} (hJ : J (replay a.recovered) s) :
    Ends (fun _ p => p.1.level = hl ∧ J [] p.2) (fun e p => E e p.2)
      (recoverAll life a ({ level := hl }, s)) := by
  let C (xs : List Assignment) (c : HashController) : Prop :=
    c.level = hl ∧ c.ranges = none ∧ (∀ x ∈ xs, ∃ bucket, x.key = .hash bucket) ∧
      (xs.map Assignment.key).Nodup ∧ ∀ x ∈ xs, x.key ∉ c.children.keys
  have hC : C a.recovered { level := hl } := ⟨rfl, rfl, hkeys, hdistinct, by simp⟩
  have hloop : Ends (fun _ (p : HashController × σ) => C [] p.1 ∧ J [] p.2) (fun e p => E e p.2)
      (forEach (recover life) a.recovered ({ level := hl }, s)) := by
    refine forEach_starts (fun _ xs => replay xs) hstart (fun _ => rfl) ?_ hC hJ
    rintro x rest c s ⟨rfl, hranges, hkeys, hdistinct, hnew⟩
    obtain ⟨⟨bucket, hbucket⟩, hkeys⟩ := List.forall_mem_cons.1 hkeys
    obtain ⟨hx, hnew⟩ := List.forall_mem_cons.1 hnew
    obtain ⟨hfresh, hdistinct⟩ := List.nodup_cons.1 hdistinct
    have hcontains : c.children.contains (.hash bucket) = false :=
      OrderedMap.contains_eq_false.2 (hbucket ▸ hx)
    refine ⟨recreation bucket (some x), replay rest, fun h c => { c with
      children := c.children.insert (.hash bucket) h }, by simp [replay, recreation?, hbucket],
      fun h => ⟨rfl, rfl, hranges, hkeys, hdistinct, fun y hy => ?_⟩, ?_⟩
    · have hne : y.key ≠ .hash bucket :=
        fun heq => hfresh (hbucket.trans heq.symm ▸ List.mem_map_of_mem hy)
      exact OrderedMap.not_mem_keys_insert hne (hnew y hy)
    · have hrecover : recover life x (c, s) = start life bucket none (some x) (c, s) := by
        simp [recover, bind_apply, Act.get, hbucket, hcontains, maintains, hranges]
      rw [hrecover]
      rfl
  refine Triple.bind (P := fun p => p = ({ level := hl }, s))
    (Q := fun _ p => p.1.level = hl ∧ J [] p.2) ?_ (fun _ => ?_) _ rfl
  · rintro _ rfl
    exact hloop.imp (fun _ _ h => ⟨h.1.1, h.2⟩) fun _ _ h => h
  · rw [htrigger]
    exact triple_pure fun _ h => h

theorem hash_ofNat_inj {i j : Nat} (hi : i < UInt32.size) (hj : j < UInt32.size)
    (h : Key.hash (Int64.ofNat i) = Key.hash (Int64.ofNat j)) : i = j := by
  have hbuckets := congrArg Int64.toInt (Key.hash.inj h)
  rw [Int64.toInt_ofNat_of_lt, Int64.toInt_ofNat_of_lt] at hbuckets
  all_goals simp only [UInt32.size] at *; omega

theorem granularity_lt {l : HashLevel} (h : l.flaw? = none) :
    l.granularity.toNatClampNeg < UInt32.size := by
  rw [HashLevel.flaw?] at h
  split at h
  · cases h
  · next hflaw =>
      have hle : ¬ (4294967295 : Int64) < l.granularity := fun hlt => hflaw (.inr hlt)
      rw [Int64.lt_iff_toInt_lt] at hle
      have hbound : (4294967295 : Int64).toInt = 4294967295 := by decide
      rw [hbound] at hle
      have htoNat : l.granularity.toNatClampNeg = l.granularity.toInt.toNat := rfl
      rw [htoNat, UInt32.size]
      omega

theorem preallocate_replays {hl : HashLevel}
    (hstart : ∀ r rest, Triple (J (r :: rest)) (life.start r) (fun _ => J rest) E)
    {a : Activation} (htrigger : a.trigger = none) {count first : Nat}
    (hcount : first + count ≤ UInt32.size) {c : HashController} (hlevel : c.level = hl)
    (hranges : c.ranges = none)
    (hnew : ∀ i, first ≤ i → i < first + count → .hash (Int64.ofNat i) ∉ c.children.keys) {s : σ}
    (hJ : J (replayAll a.recovered count first) s) :
    Ends (fun _ p => p.1.level = hl ∧ J [] p.2) (fun e p => E e p.2)
      (preallocate life a count first (c, s)) := by
  induction count generalizing first c s with
  | zero => exact ⟨hlevel, hJ⟩
  | succ count ih =>
      let key := Key.hash (Int64.ofNat first)
      let x? := Assignment.find? a.recovered key
      have hcontains : c.children.contains key = false :=
        OrderedMap.contains_eq_false.2 (hnew first (Nat.le_refl _) (by omega))
      let visit := start life (Int64.ofNat first) none x?
      have hpreallocate : preallocate life a (count + 1) first (c, s) =
          (visit >>= fun _ => preallocate life a count (first + 1)) (c, s) := by
        simp [preallocate, bind_apply, Act.get, hcontains, maintains, hranges, htrigger, visit, x?,
          key]
      let c' (h : Handle) : HashController := { c with children := c.children.insert key h }
      have hvisit : Ends (fun _ (p : HashController × σ) => ∃ h, p.1 = c' h ∧
          J (replayAll a.recovered count (first + 1)) p.2) (fun e p => E e p.2) (visit (c, s)) :=
        ends_second_first ((hstart _ _ s hJ).imp (fun h t ht => ⟨h, rfl, ht⟩) fun _ _ he => he)
      rw [hpreallocate]
      refine Triple.bind (P := fun p => p = (c, s)) (Q := fun _ p => ∃ h, p.1 = c' h ∧
        J (replayAll a.recovered count (first + 1)) p.2) ?_ (fun _ => ?_) _ rfl
      · rintro _ rfl
        exact hvisit
      · rintro ⟨_, t⟩ ⟨h, rfl, hJ'⟩
        refine ih (c := c' h) (s := t) (by omega) hlevel hranges (fun i hi hlt => ?_) hJ'
        have hne : Key.hash (Int64.ofNat i) ≠ key := by
          intro heq
          have hsame := hash_ofNat_inj (by omega) (by omega) heq
          omega
        exact OrderedMap.not_mem_keys_insert hne (hnew i (by omega) (by omega))

end HashController

namespace TemporalController

/-- What the controller of a time range asks for while the clock is inside: the identifier that the
child had, but not what hung under it. -/
def replay (now : Int64) (l : TemporalLevel) (xs : List Assignment) : List Request :=
  if l.start ≤ now ∧ now < l.stop then
    [{ path := 0, key := l.key, properties := (Level.temporal l).propertiesOf l.key .empty
       assigned := (Assignment.find? xs l.key).bind Assignment.partition }]
  else []

theorem activate_replays {tl : TemporalLevel}
    (hstart : ∀ r rest, Triple (J (r :: rest)) (life.start r) (fun _ => J rest) E)
    {a : Activation} (htrigger : a.trigger = none) {s : σ}
    (hJ : J (replay a.now tl a.recovered) s) :
    Ends (fun _ p => p.1.level = tl ∧ J [] p.2) (fun e p => E e p.2)
      (activate life a ({ level := tl }, s)) := by
  let found := (Assignment.find? a.recovered tl.key).bind Assignment.partition
  have hactivate : activate life a ({ level := tl }, s) =
      sync life a.now none ({ level := tl, recovered := found }, s) := by
    rw [← htrigger]
    rfl
  rw [hactivate]
  rw [replay] at hJ
  split at hJ
  · next hrange =>
      have hstop : ¬ tl.stop ≤ a.now := Int64.not_le.2 hrange.2
      let r : Request :=
        { path := 0, key := tl.key, properties := (Level.temporal tl).propertiesOf tl.key .empty
          assigned := found }
      have hsync : sync life a.now none ({ level := tl, recovered := found }, s) =
          (second (life.start r) >>= fun h => first (modify fun c => { c with
            child := some (tl.key, h) })) (({ level := tl } : TemporalController), s) := by
        simp [sync, bind_apply, Act.get, hstop, hrange.1, r, Act.first, Act.modify]
      rw [hsync]
      exact ends_second_first ((hstart r [] s hJ).imp (fun _ _ h => ⟨rfl, h⟩) fun _ _ he => he)
  · next hrange =>
      have hsync : sync life a.now none ({ level := tl, recovered := found }, s) =
          (.ok (), ({ level := tl, recovered := found
                      finished := decide (tl.stop ≤ a.now) }, s)) := by
        by_cases hstop : tl.stop ≤ a.now
        · simp [sync, finish, bind_apply, Act.get, Act.first, Act.modify, pure_apply, hstop]
        · have hstart : ¬ tl.start ≤ a.now := fun hle => hrange ⟨hle, Int64.not_le.1 hstop⟩
          simp [sync, bind_apply, Act.get, pure_apply, hstop, hstart]
      rw [hsync]
      exact ⟨rfl, hJ⟩

end TemporalController

end EventContexts
