import EventContexts.Proofs.PartitionIds
import EventContexts.Proofs.Replay

namespace EventContexts

open Act

variable {σ μ : Type} {life : Lifecycle σ}

namespace Level

def eagerKeys? (now : Int64) : Level → Option (List Key)
  | .keyed _ => none
  | .category l => some (l.items.map fun i => .category i.label)
  | .hash l =>
      if l.preallocate then
        some ((List.range l.granularity.toNatClampNeg).map fun i => .hash (Int64.ofNat i))
      else none
  | .episode _ => none
  | .temporal l => some (if l.start ≤ now ∧ now < l.stop then [l.key] else [])

/-- Among the assignments is every child that a controller of the level starts by itself. Time
ranges do not hand down what hangs under them, and episodes recreate nothing. -/
structure Complete (now : Int64) (l : Level) (xs : List Assignment) : Prop where
  kind : l.kind ≠ .initiatedTerminated
  eager : ∀ ks ∈ l.eagerKeys? now, (xs.map Assignment.key).Perm ks
  bare : l.kind = .temporal → ∀ x ∈ xs, x.children = []

/-- Every assignment is heeded: it is among what a controller of the level starts by itself, if it
does so, and time ranges have nothing to hand down. -/
structure Kept (now : Int64) (l : Level) (xs : List Assignment) : Prop where
  eager : ∀ ks ∈ l.eagerKeys? now, ∀ x ∈ xs, x.key ∈ ks
  bare : l.kind = .temporal → ∀ x ∈ xs, x.children = []

structure Named (l : Level) (xs : List Assignment) : Prop where
  distinct : (xs.map Assignment.key).Nodup
  keys : ∀ x ∈ xs, ∃ path, l.Places x.key path

structure Whole (now : Int64) (l : Level) (xs : List Assignment) : Prop extends
    Complete now l xs, Named l xs

def replay (now : Int64) : Level → List Assignment → List Request
  | .keyed l, xs => KeyedController.replay l 0 xs
  | .category l, xs => CategoryController.replay l xs l.items.zipIdx
  | .hash l, xs =>
      if l.preallocate then HashController.replayAll xs l.granularity.toNatClampNeg 0
      else HashController.replay xs
  | .episode _, _ => []
  | .temporal l, xs => TemporalController.replay now l xs

end Level

namespace Assignment

variable {xs : List Assignment}

def known (xs : List Assignment) (key : Key) : Assignment := (find? xs key).getD { key }

theorem find?_of_mem_keys {key : Key} (h : key ∈ xs.map Assignment.key) :
    ∃ x, find? xs key = some x := by
  obtain ⟨x, hx, rfl⟩ := List.mem_map.1 h
  exact Option.isSome_iff_exists.1 (List.find?_isSome.2 ⟨x, hx, decide_eq_true rfl⟩)

theorem key_of_find? {key : Key} {x : Assignment} (h : find? xs key = some x) : x.key = key := by
  simpa using List.find?_some h

theorem known_self (h : (xs.map Assignment.key).Nodup) {x : Assignment} (hx : x ∈ xs) :
    known xs x.key = x := by
  obtain ⟨y, hy⟩ := find?_of_mem_keys (List.mem_map_of_mem (f := Assignment.key) hx)
  rw [known, hy, Option.getD_some]
  exact List.inj_on_of_nodup_map h (List.mem_of_find?_eq_some hy) hx (key_of_find? hy)

theorem map_known_perm {ks : List Key} (h : (xs.map Assignment.key).Nodup)
    (hks : (xs.map Assignment.key).Perm ks) : (ks.map (known xs)).Perm xs := by
  have hself : (xs.map Assignment.key).map (known xs) = xs := by
    rw [List.map_map]
    exact List.map_eq_self fun x hx => known_self h hx
  have hperm := hks.map (known xs)
  rw [hself] at hperm
  exact hperm.symm

end Assignment

theorem Request.assignment_recovering_find? {xs : List Assignment} {r : Request}
    (hassigned : r.assigned = none) (hrecovered : r.recovered = none) :
    (r.recovering (Assignment.find? xs r.key)).assignment = Assignment.known xs r.key := by
  cases hx : Assignment.find? xs r.key with
  | none => simp [assignment, recovering, Assignment.known, hx, hassigned, hrecovered]
  | some x =>
      rw [assignment_recovering (Assignment.key_of_find? hx).symm, Assignment.known, hx]
      rfl

theorem KeyedController.map_assignment_replay {l : KeyedLevel} {path : UInt32}
    {xs : List Assignment} : (replay l path xs).map Request.assignment = xs := by
  induction xs generalizing path with
  | nil => rfl
  | cons x rest ih => rw [replay, List.map_cons, Request.assignment_recovering rfl, ih]

theorem CategoryController.map_assignment_replay {l : CategoryLevel} {xs : List Assignment} :
    (replay l xs l.items.zipIdx).map Request.assignment =
      (l.items.map fun i => Key.category i.label).map (Assignment.known xs) := by
  have hitems : l.items.map (fun i => Key.category i.label) =
      l.items.zipIdx.map fun i => Key.category i.1.label := by
    conv => lhs; rw [← List.zipIdx_map_fst 0 l.items, List.map_map]
    rfl
  rw [replay, List.map_map, hitems, List.map_map]
  exact List.map_congr_left fun _ _ => Request.assignment_recovering_find? rfl rfl

theorem HashController.map_assignment_replayAll {xs : List Assignment} {count first : Nat} :
    (replayAll xs count first).map Request.assignment =
      ((List.range' first count).map fun i => Key.hash (Int64.ofNat i)).map
        (Assignment.known xs) := by
  rw [replayAll, List.map_map, List.map_map]
  exact List.map_congr_left fun _ _ => Request.assignment_recovering_find? rfl rfl

theorem HashController.map_assignment_replay {xs : List Assignment}
    (h : ∀ x ∈ xs, ∃ bucket, x.key = .hash bucket) : (replay xs).map Request.assignment = xs := by
  rw [replay, List.map_filterMap]
  have hall : ∀ x ∈ xs, (recreation? x).map Request.assignment = some x := by
    intro x hx
    obtain ⟨bucket, hbucket⟩ := h x hx
    simp only [recreation?, hbucket]
    exact congrArg some (Request.assignment_recovering hbucket.symm)
  rw [List.filterMap_congr hall, List.filterMap_some]

theorem TemporalController.map_assignment_replay {now : Int64} {l : TemporalLevel}
    {xs : List Assignment} (h : ∀ x ∈ xs, x.children = []) :
    (replay now l xs).map Request.assignment =
      (if l.start ≤ now ∧ now < l.stop then [l.key] else []).map (Assignment.known xs) := by
  rw [replay]
  split
  · refine congrArg (fun x => [x]) ?_
    cases hx : Assignment.find? xs l.key with
    | none => simp [Request.assignment, Assignment.known, hx]
    | some x =>
        have hkey := Assignment.key_of_find? hx
        have hbare := h x (List.mem_of_find?_eq_some hx)
        obtain ⟨key, partition, children⟩ := x
        obtain ⟨rfl, rfl⟩ : key = l.key ∧ children = [] := ⟨hkey, hbare⟩
        simp [Request.assignment, Assignment.known, hx]
  · rfl

theorem KeyedController.mem_replay {l : KeyedLevel} {path : UInt32} {xs : List Assignment}
    {r : Request} (h : r ∈ replay l path xs) : ∃ x ∈ xs, ∃ path, r = Request.recovering
      { path, key := x.key, properties := (Level.keyed l).propertiesOf x.key .empty } (some x) := by
  induction xs generalizing path with
  | nil => cases h
  | cons x rest ih =>
      rcases List.mem_cons.1 h with rfl | h
      · exact ⟨x, List.mem_cons_self .., path, rfl⟩
      · obtain ⟨y, hy, hr⟩ := ih h
        exact ⟨y, List.mem_cons_of_mem _ hy, hr⟩

/-- A request without an event for a child that has its place, and is told so if it was live before.
Time ranges do not tell that they recreate their child. -/
structure Request.Replayed (l : Level) (xs : List Assignment) (r : Request) : Prop where
  trigger : r.trigger = none
  recovered : l.kind ≠ .temporal → r.key ∈ xs.map Assignment.key → r.recovered.isSome = true
  suits : r.Suits l

theorem Request.replayed_recovering {l : Level} {xs : List Assignment} {r : Request}
    (htrigger : r.trigger = none) (hsuits : r.Suits l) :
    (r.recovering (Assignment.find? xs r.key)).Replayed l xs where
  trigger := (trigger_recovering r _).trans htrigger
  recovered _ hkey := by
    rw [key_recovering] at hkey
    obtain ⟨x, hx⟩ := Assignment.find?_of_mem_keys hkey
    rw [hx]
    rfl
  suits := suits_recovering.2 hsuits

namespace Level

variable {l : Level} {now : Int64} {xs : List Assignment}

theorem Named.map_assignment_replay (h : l.Named xs) (hkind : l.kind ≠ .initiatedTerminated)
    (hbare : l.kind = .temporal → ∀ x ∈ xs, x.children = []) :
    (l.replay now xs).map Request.assignment =
      ((l.eagerKeys? now).map fun ks => ks.map (Assignment.known xs)).getD xs := by
  cases l with
  | keyed l => exact KeyedController.map_assignment_replay
  | category l => exact CategoryController.map_assignment_replay
  | hash l =>
      rw [replay, eagerKeys?]
      split
      · rw [List.range_eq_range']
        exact HashController.map_assignment_replayAll
      · refine HashController.map_assignment_replay fun x hx => ?_
        obtain ⟨path, bucket, hbucket, -⟩ := h.keys x hx
        exact ⟨bucket, hbucket⟩
  | episode l => exact absurd rfl hkind
  | temporal l => exact TemporalController.map_assignment_replay (hbare rfl)

theorem Named.replayed (h : l.Named xs) {r : Request} (hr : r ∈ l.replay now xs) :
    r.Replayed l xs := by
  cases l with
  | keyed l =>
      obtain ⟨x, hx, path, rfl⟩ := KeyedController.mem_replay hr
      obtain ⟨-, values, hvalues⟩ := h.keys x hx
      exact ⟨rfl, fun _ _ => rfl, values, hvalues⟩
  | category l =>
      obtain ⟨⟨i, index⟩, hi, rfl⟩ := List.mem_map.1 hr
      exact Request.replayed_recovering rfl
        ⟨index, i, List.mk_mem_zipIdx_iff_getElem?.1 hi, rfl, rfl⟩
  | hash l =>
      rw [replay] at hr
      split at hr
      · obtain ⟨i, -, rfl⟩ := List.mem_map.1 hr
        exact Request.replayed_recovering rfl ⟨_, rfl, rfl⟩
      · obtain ⟨x, -, hr⟩ := List.mem_filterMap.1 hr
        rw [HashController.recreation?] at hr
        split at hr
        · obtain rfl := Option.some.inj hr
          exact ⟨rfl, fun _ _ => rfl, _, rfl, rfl⟩
        · cases hr
  | episode l => cases hr
  | temporal l =>
      rw [replay, TemporalController.replay] at hr
      split at hr
      · obtain rfl := List.mem_singleton.1 hr
        exact ⟨rfl, fun h => absurd rfl h, rfl, rfl⟩
      · cases hr

theorem Named.replay_assignment (h : l.Named xs) (hkind : l.kind ≠ .initiatedTerminated)
    (hbare : l.kind = .temporal → ∀ x ∈ xs, x.children = []) {r : Request}
    (hr : r ∈ l.replay now xs) : r.assignment ∈ xs ∨ r.assignment.children = [] := by
  have hmem := List.mem_map_of_mem (f := Request.assignment) hr
  rw [h.map_assignment_replay hkind hbare] at hmem
  cases hks : l.eagerKeys? now with
  | none =>
      rw [hks] at hmem
      exact .inl hmem
  | some ks =>
      rw [hks] at hmem
      obtain ⟨key, -, hknown⟩ := List.mem_map.1 hmem
      rw [← hknown, Assignment.known]
      cases hx : Assignment.find? xs key with
      | none => exact .inr rfl
      | some x => exact .inl (List.mem_of_find?_eq_some hx)

theorem Kept.mem_replay (h : l.Kept now xs) (hnamed : l.Named xs)
    (hkind : l.kind ≠ .initiatedTerminated) {x : Assignment} (hx : x ∈ xs) :
    x ∈ (l.replay now xs).map Request.assignment := by
  rw [hnamed.map_assignment_replay hkind h.bare]
  cases hks : l.eagerKeys? now with
  | none => exact hx
  | some ks =>
      exact List.mem_map.2
        ⟨x.key, h.eager ks hks x hx, Assignment.known_self hnamed.distinct hx⟩

theorem Whole.replay_assignments (h : l.Whole now xs) :
    ((l.replay now xs).map Request.assignment).Perm xs := by
  rw [h.toNamed.map_assignment_replay h.kind h.bare]
  cases hks : l.eagerKeys? now with
  | none => exact .refl xs
  | some ks => exact Assignment.map_known_perm h.distinct (h.eager ks hks)

end Level

theorem Level.Places.unique {l : Level} (hl : l.flaw? = none) (hkeyed : l.kind ≠ .keyed) {key : Key}
    {p q : UInt32} (hp : l.Places key p) (hq : l.Places key q) : p = q := by
  cases l with
  | keyed l => exact absurd rfl hkeyed
  | category l =>
      obtain ⟨i, a, hi, rfl, rfl⟩ := hp
      obtain ⟨j, b, hj, hlabel, rfl⟩ := hq
      have hlabels := CategoryController.nodup_labels (by simpa [Level.flaw?] using hl)
      have hsame : (l.items.map CategoryItem.label)[i]? = (l.items.map CategoryItem.label)[j]? := by
        rw [List.getElem?_map, List.getElem?_map, hi, hj]
        exact congrArg some (Key.category.inj hlabel)
      obtain ⟨hlt, -⟩ := List.getElem?_eq_some_iff.1 hi
      rw [(List.getElem?_inj (by simpa using hlt) hlabels).1 hsame]
  | hash l =>
      obtain ⟨a, rfl, rfl⟩ := hp
      obtain ⟨b, hbucket, rfl⟩ := hq
      rw [Key.hash.inj hbucket]
  | episode l =>
      obtain ⟨a, i, rfl, rfl⟩ := hp
      obtain ⟨b, j, hnumber, rfl⟩ := hq
      rw [(Key.episode.inj hnumber).2]
  | temporal l => exact hp.2.trans hq.2.symm

theorem KeyedController.map_path_replay {l : KeyedLevel} {path : UInt32} {xs : List Assignment} :
    (replay l path xs).map Request.path =
      (List.range xs.length).map fun i => path + UInt32.ofNat i := by
  induction xs generalizing path with
  | nil => rfl
  | cons x rest ih =>
      rw [replay, List.map_cons, ih, List.length_cons, List.range_succ_eq_map, List.map_cons,
        List.map_map]
      refine congrArg₂ List.cons (UInt32.add_zero path).symm (List.map_congr_left fun i _ => ?_)
      exact UInt32.add_one_add_ofNat path i

theorem KeyedController.ascending_replay {l : KeyedLevel} {xs : List Assignment}
    (h : xs.length ≤ UInt32.size) : ((replay l 0 xs).map Request.path).Pairwise (· < ·) := by
  rw [map_path_replay, List.pairwise_map]
  refine List.pairwise_lt_range.imp_of_mem fun {i j} hi hj hij => ?_
  rw [List.mem_range] at hi hj
  rw [UInt32.zero_add, UInt32.zero_add, UInt32.lt_iff_toNat_lt,
    UInt32.toNat_ofNat_of_lt' (by omega), UInt32.toNat_ofNat_of_lt' (by omega)]
  exact hij

theorem Level.Whole.seated {l : Level} {now : Int64} {xs : List Assignment} (h : l.Whole now xs)
    (hl : l.flaw? = none) {ps : List UInt32} (hps : ps.Pairwise (· < ·))
    (hplaces : List.Forall₂ (fun p x => l.Places x.key p) ps xs) :
    ∃ ys : List (UInt32 × Assignment), (ys.map Prod.fst).Pairwise (· < ·) ∧ ys.map Prod.snd = xs ∧
      ys.Perm ((l.replay now xs).map fun r => (r.path, r.assignment)) := by
  by_cases hkeyed : l.kind = .keyed
  · obtain ⟨kl, rfl⟩ : ∃ kl, l = .keyed kl := by
      cases l with
      | keyed kl => exact ⟨kl, rfl⟩
      | _ => cases hkeyed
    have hlength : xs.length ≤ UInt32.size := hplaces.length_eq ▸ List.length_le_of_ascending hps
    refine ⟨_, ?_, ?_, .refl _⟩
    · rw [List.map_map]
      exact KeyedController.ascending_replay hlength
    · rw [List.map_map]
      exact KeyedController.map_assignment_replay
  · have hreplay : ∀ y ∈ (l.replay now xs).map fun r => (r.path, r.assignment),
        l.Places y.2.key y.1 := by
      intro y hy
      obtain ⟨r, hr, rfl⟩ := List.mem_map.1 hy
      exact (h.toNamed.replayed hr).suits
    obtain ⟨zs, hfst, hsnd, hperm⟩ := hplaces.exists_zip
      (fun p q x => Level.Places.unique hl hkeyed) h.distinct.of_map hreplay
      (by rw [List.map_map]; exact h.replay_assignments)
    exact ⟨zs, hfst ▸ hps, hsnd, hperm⟩

namespace Scheme

variable {l : Level} {J : List Request → σ → Prop} {E : Error → σ → Prop} {a : Activation} {s : σ}

theorem lift_replays {wrap : μ → Scheme} {C : μ → Prop} {x : Act (μ × σ) Unit} {c : μ}
    {scheme : Scheme}
    (h : Ends (fun _ p => C p.1 ∧ J [] p.2) (fun e p => E e p.2) (x (c, s)))
    (hwrap : ∀ c, C c → (wrap c).level = l) :
    Ends (fun _ p => p.1.level = l ∧ J [] p.2) (fun e p => E e p.2) (lift wrap x c (scheme, s)) :=
  lift_triple (t := scheme)
    (h.imp (fun _ _ hp => (⟨hwrap _ hp.1, hp.2⟩ : _ ∧ _)) fun _ _ he => he) _ rfl

theorem activate_replays (hl : l.flaw? = none) (hkind : l.kind ≠ .initiatedTerminated)
    (hnamed : l.Named a.recovered) (htrigger : a.trigger = none)
    (hstart : ∀ r rest, Triple (J (r :: rest)) (life.start r) (fun _ => J rest) E)
    (hJ : J (l.replay a.now a.recovered) s) :
    Ends (fun _ p => p.1.level = l ∧ J [] p.2) (fun e p => E e p.2)
      (activate life a (ofLevel l, s)) := by
  cases l with
  | keyed l =>
      have hdone := KeyedController.activate_replays hstart htrigger
        (fun x hx => (hnamed.keys x hx).choose_spec) hnamed.distinct hJ
      change Ends _ _
        (lift .keyed (KeyedController.activate life a) { level := l } (.keyed { level := l }, s))
      exact lift_replays hdone fun _ => congrArg Level.keyed
  | category l =>
      have hdone := CategoryController.activate_replays hstart htrigger
        (CategoryController.nodup_labels (by simpa [Level.flaw?] using hl)) hJ
      change Ends _ _
        (lift .category (CategoryController.activate life a) { level := l }
          (.category { level := l }, s))
      exact lift_replays hdone fun _ => congrArg Level.category
  | hash l =>
      have hdone : Ends (fun _ (p : HashController × σ) => p.1.level = l ∧ J [] p.2)
          (fun e p => E e p.2) (HashController.activate life a ({ level := l }, s)) := by
        have hactivate : HashController.activate life a ({ level := l }, s) =
            (if l.preallocate then HashController.preallocateAll life a
              else HashController.recoverAll life a) ({ level := l }, s) := rfl
        rw [hactivate]
        rw [Level.replay] at hJ
        split
        · next hpreallocate =>
            rw [if_pos hpreallocate] at hJ
            have hcount : l.granularity.toNatClampNeg < UInt32.size :=
              HashController.granularity_lt (by simpa [Level.flaw?] using hl)
            have hlimit : 0 + l.granularity.toNatClampNeg ≤ UInt32.size := by omega
            exact HashController.preallocate_replays hstart htrigger hlimit rfl rfl (by simp) hJ
        · next hpreallocate =>
            rw [if_neg hpreallocate] at hJ
            refine HashController.recoverAll_replays hstart htrigger (fun x hx => ?_)
              hnamed.distinct hJ
            obtain ⟨-, bucket, hbucket, -⟩ := hnamed.keys x hx
            exact ⟨bucket, hbucket⟩
      change Ends _ _
        (lift .hash (HashController.activate life a) { level := l } (.hash { level := l }, s))
      exact lift_replays hdone fun _ => congrArg Level.hash
  | episode l => exact absurd rfl hkind
  | temporal l =>
      have hdone := TemporalController.activate_replays hstart htrigger hJ
      change Ends _ _
        (lift .temporal (TemporalController.activate life a) { level := l }
          (.temporal { level := l }, s))
      exact lift_replays hdone fun _ => congrArg Level.temporal

end Scheme

end EventContexts
