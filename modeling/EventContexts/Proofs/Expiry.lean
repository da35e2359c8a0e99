import EventContexts.Proofs.Clock

namespace EventContexts

open Act

def Level.Expired (now : Int64) : Level → Key → Prop
  | .temporal l, _ => l.stop ≤ now
  | .episode l, .episode start _ => ∃ d, l.stop = .after d ∧ saturatingAdd start d ≤ now
  | _, _ => False

def Scheme.Current (now : Int64) (s : Scheme) : Prop :=
  ∀ k ∈ s.children.keys, ¬ s.level.Expired now k

variable {σ : Type} {life : Lifecycle σ} {now : Int64}

theorem lt_saturatingAdd {d : Int64} (hd : 0 < d) (hnow : now < Int64.maxValue) :
    now < saturatingAdd now d := by
  have hd : 0 < d.toInt := Int64.lt_iff_toInt_lt.1 hd
  have hmax : now.toInt < 2 ^ 63 - 1 := Int64.toInt_maxValue ▸ Int64.lt_iff_toInt_lt.1 hnow
  have hmin := Int64.le_toInt now
  have hsmall : ¬ now.toInt + d.toInt < Int64.minValue.toInt := by
    rw [Int64.toInt_minValue]
    omega
  rw [saturatingAdd, Binary64.clampInt64, if_neg hsmall]
  split
  · exact hnow
  · next hlarge =>
      rw [Int64.toInt_maxValue] at hlarge
      rw [Int64.lt_iff_toInt_lt, Int64.toInt_ofInt_of_le (by omega) (by omega)]
      omega

theorem Lifecycle.serves_true : life.Serves (fun _ => True) fun _ => True :=
  ⟨fun _ _ _ => ends_of_state trivial, fun _ _ _ => ends_of_state trivial⟩

namespace EpisodeController

variable {el : EpisodeLevel} {start : Int64} {initiator : Option Event} {a : Activation}
  {xs : List (Key × Handle)}

/-- Knows the time, and remembers episodes that have run out only if they are in the list. -/
structure Due (el : EpisodeLevel) (now : Int64) (xs : List (Key × Handle))
    (c : EpisodeController) : Prop where
  level : c.level = el
  clock : c.now = now
  due : ∀ k ∈ c.children.keys, (Level.episode el).Expired now k → k ∈ xs.map Prod.fst

abbrev Seeing (el : EpisodeLevel) (now : Int64) (xs : List (Key × Handle)) :
    EpisodeController × σ → Prop :=
  Both (Due el now xs) fun _ => True

theorem not_expired (hflaw : el.flaw? = none) (hnow : now < Int64.maxValue) {number : UInt64} :
    ¬ (Level.episode el).Expired now (.episode now number) := by
  rintro ⟨d, hstop, hle⟩
  have hd : 0 < d := by
    by_contra hd
    rw [EpisodeLevel.flaw?] at hflaw
    simp only [hstop, if_pos (Int64.not_lt.1 hd)] at hflaw
    cases hflaw
  exact Int64.not_le.2 (lt_saturatingAdd hd hnow) hle

theorem seeing_startEpisode
    (hstart : ∀ number, ¬ (Level.episode el).Expired now (.episode start number)) :
    Keeps (Seeing (σ := σ) el now []) (startEpisode life start initiator) := by
  refine keeps_get_bind fun (c, s) _ => ?_
  have hpath : Keeps (Seeing (σ := σ) el now []) (ofExcept c.nextPath?) :=
    triple_ofExcept (fun _ _ _ h => h) fun _ _ _ h => h
  refine hpath.bind fun path => ?_
  refine life.serves_true.keeps_start trivial fun h m hm => ⟨hm.level, hm.clock, fun k hk => ?_⟩
  rcases OrderedMap.mem_keys_insert.1 hk with rfl | hk
  · exact fun hexpired => absurd hexpired (hstart _)
  · exact hm.due k hk

theorem seeing_endEpisodes (xs : List (Key × Handle)) :
    Triple (Seeing (σ := σ) el now xs) (forAll (endEpisode life) xs)
      (fun _ => Seeing el now []) (fun _ => Seeing el now []) := by
  refine triple_forAll xs fun x rest => ?_
  refine Triple.bind (Q := fun _ => Seeing el now rest) ?_ fun _ =>
    keeps_second (life.serves_true.stop x.2)
  refine Triple.first fun s => triple_modify fun m hm => ?_
  refine ⟨⟨hm.1.level, hm.1.clock, fun k hk => ?_⟩, hm.2⟩
  obtain ⟨hk, hne⟩ := OrderedMap.mem_keys_erase.1 hk
  exact fun hexpired => (List.mem_cons.1 (hm.1.due k hk hexpired)).resolve_left hne

theorem mem_expired {c : EpisodeController} {d : Int64} (hstop : c.level.stop = .after d) {k : Key}
    (hk : k ∈ c.children.keys) (h : (Level.episode c.level).Expired now k) :
    k ∈ (c.expired d now).map Prod.fst := by
  obtain ⟨e, he, rfl⟩ := List.mem_map.1 hk
  refine List.mem_map_of_mem (List.mem_filter.2 ⟨he, ?_⟩)
  obtain ⟨key, handle⟩ := e
  cases key with
  | episode start number =>
      obtain ⟨d', hstop', hle⟩ := h
      obtain rfl := EndCondition.after.inj (hstop.symm.trans hstop')
      exact decide_eq_true hle
  | _ => exact h.elim

section steps

variable (hflaw : el.flaw? = none) (hnow : now < Int64.maxValue)

include hflaw hnow

theorem seeing_restartIfNow : Keeps (Seeing (σ := σ) el now []) (restartIfNow life) := by
  refine keeps_get_bind fun (c, s) hc => ?_
  simp only
  split
  · refine seeing_startEpisode fun number => ?_
    rw [hc.1.clock]
    exact not_expired hflaw hnow
  · exact keeps_pure

theorem seeing_tick : Triple (Both (fun c => c.level = el) fun _ => True) (tick life now)
    (fun _ => Seeing (σ := σ) el now []) (fun _ => Seeing el now []) := by
  refine Triple.bind (Q := fun _ => Both (fun c => c.level = el ∧ c.now = now) fun _ => True) ?_
    fun _ => ?_
  · exact Triple.first fun s => triple_modify fun c hc => ⟨⟨hc.1, rfl⟩, trivial⟩
  · refine triple_get_bind fun (c, s) ⟨⟨hlevel, hclock⟩, _⟩ => ?_
    subst hlevel
    cases hstop : c.level.stop with
    | event pattern =>
        simp only [hstop]
        refine triple_return ⟨⟨rfl, hclock, fun k _ hexpired => ?_⟩, trivial⟩
        cases k with
        | episode start number =>
            obtain ⟨d, hafter, -⟩ := hexpired
            rw [hstop] at hafter
            cases hafter
        | _ => exact hexpired.elim
    | after d =>
        simp only [hstop]
        have hdue : Due c.level now (c.expired d now) c := ⟨rfl, hclock, fun k => mem_expired hstop⟩
        refine Triple.bind ((seeing_endEpisodes _).starting ⟨hdue, trivial⟩) fun _ => ?_
        split
        · exact keeps_pure
        · exact seeing_restartIfNow hflaw hnow

theorem seeing_activate (ha : a.now = now) (htrigger : a.trigger = none) :
    Triple (Both (fun c => c.level = el ∧ c.children = OrderedMap.empty) fun _ => True)
      (activate life a) (fun _ => Seeing (σ := σ) el now []) (fun _ => Seeing el now []) := by
  refine Triple.bind (Q := fun _ => Seeing el now []) ?_ fun _ => ?_
  · refine Triple.first fun s => triple_modify fun c hc => ⟨⟨hc.1.1, ha, fun k hk => ?_⟩, trivial⟩
    rw [hc.1.2] at hk
    cases hk
  · refine keeps_get_bind fun (c, s) hc => ?_
    have hstart : Keeps (Seeing (σ := σ) el now []) (startEpisode life a.now a.trigger) := by
      refine seeing_startEpisode fun number => ?_
      rw [ha]
      exact not_expired hflaw hnow
    cases hlevel : c.level.start with
    | now =>
        simp only [hlevel]
        exact hstart
    | event pattern =>
        simp only [hlevel, htrigger]
        exact keeps_pure

end steps

end EpisodeController

namespace TemporalController

variable {tl : TemporalLevel} {trigger : Option Event} {a : Activation}

def Open (tl : TemporalLevel) (now : Int64) (c : TemporalController) : Prop :=
  c.level = tl ∧ (tl.stop ≤ now → c.child = none)

theorem open_sync : Triple (Both (fun c => c.level = tl) fun _ => True) (sync life now trigger)
    (fun _ => Both (σ := σ) (Open tl now) fun _ => True)
    (fun _ => Both (Open tl now) fun _ => True) := by
  by_cases hstop : tl.stop ≤ now
  · refine triple_get_bind fun (c, s) ⟨hlevel, _⟩ => ?_
    subst hlevel
    simp only [hstop, if_true]
    refine triple_get_bind fun (c', s') hc' => ?_
    obtain ⟨rfl, rfl⟩ := Prod.mk.inj hc'
    refine Triple.bind (Q := fun _ => Both (Open c'.level now) fun _ => True) ?_ fun _ => ?_
    · exact Triple.first fun _ => triple_modify fun m hm => by
        obtain ⟨rfl, -⟩ := Prod.mk.inj hm
        exact ⟨⟨rfl, fun _ => rfl⟩, trivial⟩
    · split
      · exact keeps_second (life.serves_true.stop _)
      · exact keeps_pure
  · have hopen {p : TemporalController × σ} (hp : p.1.level = tl ∧ True) :
        Both (Open tl now) (fun _ => True) p := ⟨⟨hp.1, fun h => absurd h hstop⟩, trivial⟩
    exact (serves_sync (life.serves_true.mono fun _ _ => trivial)).imp (fun _ h => h)
      (fun _ _ => hopen) fun _ _ => hopen

end TemporalController

namespace Scheme

variable {l : Level} {s : Scheme} {a : Activation}

theorem current_of_not_expired (hl : ∀ k, ¬ s.level.Expired now k) : s.Current now :=
  fun k _ => hl k

theorem current_episode {el : EpisodeLevel} {c : EpisodeController}
    (h : EpisodeController.Due el now [] c) : (Scheme.episode c).Current now := by
  obtain ⟨rfl, -, hdue⟩ := h
  exact fun k hk hexpired => List.not_mem_nil (hdue k hk hexpired)

theorem current_temporal {tl : TemporalLevel} {c : TemporalController}
    (h : TemporalController.Open tl now c) : (Scheme.temporal c).Current now := by
  obtain ⟨rfl, hnone⟩ := h
  intro k hk hexpired
  rw [TemporalController.children_none (hnone hexpired)] at hk
  cases hk

variable (hflaw : l.flaw? = none) (hnow : now < Int64.maxValue)

include hflaw hnow

theorem current_tick : Triple (fun p : Scheme × σ => p.1.level = l) (tick life now)
    (fun _ p => p.1.Current now) (fun _ p => p.1.Current now) := by
  refine triple_get_bind fun (scheme, s) hl => ?_
  subst hl
  cases scheme with
  | episode c =>
      refine lift_triple ((EpisodeController.seeing_tick hflaw hnow _ ⟨rfl, trivial⟩).imp ?_ ?_)
      · exact fun _ _ h => current_episode h.1
      · exact fun _ _ h => current_episode h.1
  | temporal c =>
      refine lift_triple ((TemporalController.open_sync _ ⟨rfl, trivial⟩).imp ?_ ?_)
      · exact fun _ _ h => current_temporal h.1
      · exact fun _ _ h => current_temporal h.1
  | _ => exact triple_return fun k _ => id

theorem current_activate (ha : a.now = now) (htrigger : a.trigger = none) :
    Triple (fun p : Scheme × σ => p.1 = ofLevel l) (activate life a)
      (fun _ p => p.1.Current now) (fun _ p => p.1.Current now) := by
  have hplain (hl : ∀ k, ¬ l.Expired now k) :
      Triple (fun p : Scheme × σ => p.1 = ofLevel l) (activate life a)
        (fun _ p => p.1.Current now) (fun _ p => p.1.Current now) := by
    have hcurrent {p : Scheme × σ} (hp : p.1.level = l ∧ True) : p.1.Current now :=
      current_of_not_expired (hp.1 ▸ hl)
    refine (serves_activate (life.serves_true.mono fun _ _ => trivial)).imp ?_
      (fun _ _ => hcurrent) fun _ _ => hcurrent
    rintro ⟨_, s⟩ rfl
    exact ⟨level_ofLevel l, trivial⟩
  cases l with
  | episode el =>
      refine triple_get_bind fun (scheme, s) hs => ?_
      subst hs
      have hactivate : Ends (fun _ => EpisodeController.Seeing el now [])
          (fun _ => EpisodeController.Seeing el now [])
          (EpisodeController.activate life a (⟨el, .empty, 0, 0⟩, s)) :=
        EpisodeController.seeing_activate hflaw hnow ha htrigger _ ⟨⟨rfl, rfl⟩, trivial⟩
      exact lift_triple (hactivate.imp (fun _ _ h => current_episode h.1)
        fun _ _ h => current_episode h.1)
  | temporal tl =>
      refine triple_get_bind fun (scheme, s) hs => ?_
      subst hs
      have hsync : Triple (Both (fun c => c.level = tl) fun _ => True)
          (TemporalController.activate life a)
          (fun _ => Both (TemporalController.Open tl now) fun _ => True)
          (fun _ => Both (TemporalController.Open tl now) fun _ => True) :=
        Triple.bind (keeps_first_modify fun _ h => h) fun _ => by
          rw [ha]
          exact TemporalController.open_sync
      exact lift_triple ((hsync (⟨tl, none, false, none⟩, s) ⟨rfl, trivial⟩).imp
        (fun _ _ h => current_temporal h.1) fun _ _ h => current_temporal h.1)
  | _ => exact hplain fun _ => id

end Scheme

theorem Scheme.timed_current (hnow : now < Int64.maxValue) :
    Scheme.Timed now (Scheme.Current now) (Scheme.Current now) where
  tick _ _ hflaw := current_tick hflaw hnow
  activate _ _ _ hflaw ha htrigger :=
    (current_activate hflaw hnow ha htrigger).imp (fun _ h => h) (fun _ _ h => h)
      fun _ _ _ => trivial
  weaken _ h := h

namespace Context

variable {c : Context} {runtime : Runtime} {ids todo rest : List ControllerId} {id : ControllerId}

abbrev Ticking (ids : List ControllerId) (now : Int64) (todo : List ControllerId)
    (c : Context) : Prop :=
  Underway (Scheme.Current now) ids now todo c

theorem ticking_step (hnow : now < Int64.maxValue) :
    Triple (Ticking ids now (id :: rest))
      (fun c => (c.onRoot fun tree => Node.atController id (fun below path =>
        (c.setting runtime).drive below path fun life => Controller.tick life now) _ [] tree).getD
          (.ok (), c))
      (fun _ => Ticking ids now rest) (fun _ => Ticking ids now rest) :=
  underway_step (Scheme.timed_current hnow)

theorem ticking_tickEach (hnow : now < Int64.maxValue) (done : List ControllerId) :
    Triple (Ticking ids now (done ++ rest)) (tickEach runtime now done)
      (fun _ => Ticking ids now rest) (fun _ _ => True) :=
  underway_tickEach (Scheme.timed_current hnow) done

/-- Nothing that has run out is remembered by the controllers that are not listed, or hangs under
them if only controllers start children. -/
structure Timely (strict : Prop) (now : Int64) (rest : List ControllerId) (c : Context) : Prop where
  remembered : ∀ x ∈ c.entries, x.id ∉ rest →
    ∀ m ∈ x.controller.children.entries, ¬ x.controller.level.Expired now m.1
  live : strict → ∀ x ∈ c.entries, x.id ∉ rest →
    ∀ m ∈ x.handles, ¬ x.controller.level.Expired now m.1

variable {allowed : Operation → Prop} {strict : Prop}

/-- When the clock has ticked, everything that has run out has ended. Where a controller fails, the
controllers after it have not reacted; all others have, the failing one included. -/
theorem tick_ends_expired (h : Reachable allowed c)
    (hregular : strict → ∀ op, allowed op → op.Regular) (hnow : now < Int64.maxValue) :
    ((advance runtime now c).1 = .ok () → (advance runtime now c).2.Timely strict now []) ∧
    ∀ e, (advance runtime now c).1 = .error e → ∃ done id rest c₁,
      c.controllers.map Controller.id = done ++ id :: rest ∧
      tickEach runtime now done { c with now } = (.ok (), c₁) ∧
      tickEach runtime now [id] c₁ = (.error e, (advance runtime now c).2) ∧
      (advance runtime now c).2.Timely strict now rest := by
  let ids := c.controllers.map Controller.id
  have hsound : c.Sound False := h.sound False.elim
  have hclock : ({ c with now } : Context).Sound False :=
    ⟨hsound.ids, hsound.active, hsound.idle, hsound.tree⟩
  have hstart : Ticking ids now ids { c with now } := by
    refine ⟨hclock, rfl, List.suffix_rfl, fun x hx hnot => absurd ?_ hnot⟩
    rw [entries_with] at hx
    exact List.mem_map_of_mem (controller_mem_controllers hx)
  have hadvance : advance runtime now c = tickEach runtime now ids { c with now } := by
    simp only [advance, tickEach, controllers_with, ids]
  have htimely {rest} (hticking : Ticking ids now rest (advance runtime now c).2) :
      (advance runtime now c).2.Timely strict now rest := by
    have hremembered : ∀ x ∈ (advance runtime now c).2.entries, x.id ∉ rest →
        ∀ m ∈ x.controller.children.entries, ¬ x.controller.level.Expired now m.1 :=
      fun x hx hnot m hm => hticking.current x hx hnot _ (List.mem_map_of_mem hm)
    refine ⟨hremembered, fun hstrict x hx hnot m hm => hremembered x hx hnot m ?_⟩
    have hreachable : Reachable Operation.Regular (advance runtime now c).2 :=
      .step runtime (.advance now) (h.mono (hregular hstrict)) trivial
    exact ((controllers_agree hreachable).children x hx).mem_iff.2 hm
  constructor
  · intro hok
    have hrun : tickEach runtime now ids { c with now } = (.ok (), (advance runtime now c).2) := by
      rw [← hadvance, ← hok]
    have hall : Triple (Ticking ids now (ids ++ [])) (tickEach runtime now ids)
        (fun _ => Ticking ids now []) (fun _ _ => True) := ticking_tickEach hnow ids
    exact htimely ((hall _ (by rwa [List.append_nil])).congr hrun)
  · intro e herror
    have hrun : tickEach runtime now ids { c with now } =
        (.error e, (advance runtime now c).2) := by
      rw [← hadvance, ← herror]
    obtain ⟨done, id, rest, c₁, hids, hdone, hfailing⟩ := forEach_error hrun
    have hreached : Ticking ids now (id :: rest) c₁ :=
      (ticking_tickEach hnow done { c with now } (hids ▸ hstart)).congr hdone
    have hlast : Triple (Ticking ids now (id :: rest)) (tickEach runtime now [id])
        (fun _ => Ticking ids now rest) (fun _ => Ticking ids now rest) :=
      (ticking_step hnow).bind fun _ => triple_pure fun _ h => h
    exact ⟨done, id, rest, c₁, hids, hdone, hfailing, htimely ((hlast c₁ hreached).congr hfailing)⟩

def shifted : Context :=
  let turns : Declaration :=
    { name := "turns"
      outer := .keyed { name := "user", items := [⟨"Page", ["user"]⟩] }
      inner := [.temporal { name := "turn", start := 0, stop := 10 }]
      sound := by decide
      distinct := by decide }
  let other : Event := { type := "Page", data := OrderedMap.ofPairs [("user", .int 2)] }
  let attached := (perform .collecting (.attach seen) (Context.new turns)).2
  let first := (perform .collecting (.process page) attached).2
  (perform .collecting (.process other) first).2

theorem reachable_shifted : Reachable Operation.Regular shifted :=
  .step _ _ (.step _ _ (.step _ _ (.new ..) trivial) trivial) trivial

def stuck : Runtime := { start := fun _ _ => .ok none, stop := fun _ _ _ => .error "stuck" }

theorem tick_ends_expired_shifted :
    shifted.allocatedIds = [0, 1] ∧ (advance .collecting 10 shifted).1 = .ok () ∧
      (advance .collecting 10 shifted).2.Timely True 10 [] ∧
      (advance .collecting 10 shifted).2.allocatedIds = [] := by
  have hok : (advance .collecting 10 shifted).1 = .ok () := by decide +kernel
  exact ⟨by decide +kernel, hok,
    (tick_ends_expired reachable_shifted (fun _ _ hop => hop) (by decide)).1 hok, by decide +kernel⟩

/-- Where the agents of one branch fail to stop, the range of another branch outlives its end. -/
theorem stuck_outlives :
    ¬ ∀ (c : Context) (runtime : Runtime) (now : Int64),
      Reachable Operation.Regular c → now < Int64.maxValue →
      (∃ name p reason, (advance runtime now c).1 = .error (.stopFailed name p reason)) →
      ∀ x ∈ (advance runtime now c).2.entries, ∀ m ∈ x.handles,
        ¬ x.controller.level.Expired now m.1 := by
  intro h
  have hfailed : (advance stuck 10 shifted).1 = .error (.stopFailed "seen" 0 "stuck") := by
    decide +kernel
  have hleft : ∃ x ∈ (advance stuck 10 shifted).2.entries, ∃ m ∈ x.handles,
      x.controller.level = .temporal { name := "turn", start := 0, stop := 10 } := by
    decide +kernel
  obtain ⟨x, hx, m, hm, hlevel⟩ := hleft
  have hlive : ¬ x.controller.level.Expired 10 m.1 :=
    h shifted stuck 10 reachable_shifted (by decide) ⟨"seen", 0, "stuck", hfailed⟩ x hx m hm
  rw [hlevel] at hlive
  exact hlive (Int64.le_refl 10)

end Context

end EventContexts
