import EventContexts.Proofs.Confinement
import EventContexts.Proofs.Settling

namespace EventContexts

open Act

namespace TemporalController

def closed (c : TemporalController) : TemporalController :=
  { c with finished := true, child := none }

def Bound (h : Handle) (c : TemporalController) : Prop := (∃ k, c.child = some (k, h)) ∨ c.Over

structure Spent (started : List Handle) (c : TemporalController) : Prop where
  few : started.length ≤ 1
  child : ∀ m, c.child = some m → started = [m.2]
  finished : c.child = none → c.finished = false → started = []

theorem length_children_le {c : TemporalController} :
    (Scheme.temporal c).children.entries.length ≤ 1 := by
  cases hchild : c.child with
  | none => simp [children_none hchild]
  | some m =>
      rw [children_some hchild]
      exact Nat.le_refl 1

theorem over_closed {c : TemporalController} : c.closed.Over := ⟨rfl, rfl⟩

theorem Spent.closed {started : List Handle} {c : TemporalController} (hc : c.Spent started) :
    c.closed.Spent started :=
  ⟨hc.few, by rintro _ ⟨⟩, by rintro _ ⟨⟩⟩

structure Lasts {σ : Type} (life : Lifecycle σ) (T : TemporalController → σ → Prop) : Prop where
  recovered : ∀ {c s} p, T c s → T { c with recovered := p } s
  closed : ∀ {c s}, T c s → T c.closed s
  stop : ∀ c h, Keeps (T (TemporalController.closed c)) (life.stop h)
  start : ∀ {c s} (r : Request), T c s → c.child = none → c.finished = false →
    Ends (fun h => T { c with child := some (c.level.key, h) }) (fun _ => T c) (life.start r s)

variable {σ : Type} {life : Lifecycle σ} {T : TemporalController → σ → Prop}
  {now : Int64} {trigger : Option Event} {a : Activation}

theorem Lasts.sync (hT : Lasts life T) :
    Keeps (fun p => T p.1 p.2) (TemporalController.sync life now trigger) := by
  refine triple_get_bind fun (c, s) hc => ?_
  simp only
  split
  · refine triple_get_bind fun (c', s') hc' => ?_
    obtain ⟨rfl, rfl⟩ := Prod.mk.inj hc'
    refine Triple.bind (Q := fun _ p => p.1 = c'.closed ∧ T c'.closed p.2) ?_ fun _ => ?_
    · rintro _ rfl
      exact ⟨rfl, hT.closed hc⟩
    · split
      · refine Triple.second fun m t ⟨hm, ht⟩ => ?_
        obtain rfl : m = c'.closed := hm
        exact hT.stop c' _ t ht
      · exact triple_pure fun p hp => by
          obtain ⟨hp, ht⟩ := hp
          rwa [hp]
  · split
    · next hdue =>
        obtain ⟨-, hnone, hfinished⟩ := hdue
        let due : TemporalController := { c with recovered := none }
        have hready : T due s := hT.recovered none hc
        refine Triple.bind (Q := fun _ p => p = (due, s)) ?_ fun _ => ?_
        · rintro _ rfl
          exact rfl
        · rintro _ rfl
          exact ends_second_first (hT.start _ hready (Option.isNone_iff_eq_none.1 hnone) hfinished)
    · exact triple_return hc

theorem Lasts.activate (hT : Lasts life T) :
    Keeps (fun p => T p.1 p.2) (TemporalController.activate life a) := by
  refine Triple.bind (Q := fun _ p => T p.1 p.2) ?_ fun _ => hT.sync
  exact Triple.first fun _ => triple_modify fun _ hc => hT.recovered _ hc

/-- The steps leave `T` as it is, whatever comes of starts and stops. -/
structure Lasting (T : TemporalController → Prop) : Prop where
  recovered : ∀ {c} p, T c → T { c with recovered := p }
  closed : ∀ {c}, T c → T c.closed
  start : ∀ {c h}, T c → c.child = none → c.finished = false →
    T { c with child := some (c.level.key, h) }

theorem Lasting.lasts {T : TemporalController → Prop} (hT : Lasting T) (life : Lifecycle σ) :
    Lasts life fun c _ => T c where
  recovered p hc := hT.recovered p hc
  closed hc := hT.closed hc
  stop c h _ hc := ends_of_state (P := fun _ => T c.closed) hc
  start {c s} r hc hnone hfinished := by
    rcases life.start r s with ⟨_ | h, t⟩
    · exact hc
    · exact hT.start hc hnone hfinished

theorem lasting_level {l : TemporalLevel} : Lasting fun c => c.level = l where
  recovered _ hc := hc
  closed hc := hc
  start hc _ _ := hc

theorem lasting_over : Lasting Over where
  recovered _ hc := hc
  closed _ := over_closed
  start hc _ hfinished := by
    rw [hc.1] at hfinished
    cases hfinished

theorem lasting_bound {h : Handle} : Lasting (Bound h) where
  recovered _ hc := hc
  closed _ := .inr over_closed
  start hc hnone hfinished := by
    rcases hc with ⟨k, hchild⟩ | hover
    · rw [hnone] at hchild
      cases hchild
    · rw [hover.1] at hfinished
      cases hfinished

theorem lasts_spent : Lasts life.noting fun c p => c.Spent p.2.started where
  recovered _ hc := ⟨hc.few, hc.child, hc.finished⟩
  closed hc := hc.closed
  stop c h := Triple.first fun asked s hs => ends_of_state hs
  start {c s} r hc hnone hfinished := by
    obtain ⟨s, asked⟩ := s
    have hstarted : asked.started = [] := hc.finished hnone hfinished
    rcases hs : life.start r s with ⟨e | h, s'⟩
    · have hsame : Asked.started (asked ++ [(r, .error e)]) = [] := by
        rw [Asked.started, List.filterMap_append, ← Asked.started, hstarted]
        rfl
      simp only [Lifecycle.noting, hs]
      refine ⟨?_, fun m hm => ?_, fun _ _ => hsame⟩
      · exact hsame ▸ Nat.zero_le 1
      · rw [hnone] at hm
        cases hm
    · have hone : Asked.started (asked ++ [(r, .ok h)]) = [h] := by
        rw [Asked.started, List.filterMap_append, ← Asked.started, hstarted]
        rfl
      simp only [Lifecycle.noting, hs]
      refine ⟨hone ▸ Nat.le_refl 1, fun m hm => ?_, by rintro ⟨⟩⟩
      obtain rfl := Option.some.inj hm
      exact hone

end TemporalController

def Scheme.OfRange (T : TemporalController → Prop) (s : Scheme) : Prop := ∃ c, s = .temporal c ∧ T c

variable {σ : Type} {life : Lifecycle σ} {T : TemporalController → σ → Prop}
  {now : Int64} {a : Activation} {e : Event} {ranges : List BucketRange}

namespace Scheme

abbrev Ranging (T : TemporalController → σ → Prop) (p : Scheme × σ) : Prop :=
  p.1.OfRange fun c => T c p.2

theorem ranging_lift {x : Act (TemporalController × σ) Unit} {c : TemporalController} {s : σ}
    (hx : Keeps (fun p => T p.1 p.2) x) (hc : T c s) :
    Triple (fun p => p = (temporal c, s)) (lift .temporal x c) (fun _ => Ranging T)
      fun _ => Ranging T :=
  lift_triple ((hx (c, s) hc).imp (fun _ p hp => ⟨p.1, rfl, hp⟩) fun _ p hp => ⟨p.1, rfl, hp⟩)

theorem ranging_route : Keeps (Ranging T) (route life e) := by
  refine triple_get_bind ?_
  rintro ⟨_, s⟩ ⟨c, rfl, hc⟩
  exact triple_return ⟨c, rfl, hc⟩

theorem ranging_restrict : Keeps (Ranging T) (restrict life ranges) := by
  refine triple_get_bind ?_
  rintro ⟨_, s⟩ ⟨c, rfl, hc⟩
  apply triple_fail
  rintro _ rfl
  exact ⟨c, rfl, hc⟩

theorem OfRange.forget {T : TemporalController → Prop} {s : Scheme} {h : Handle}
    (hs : s.OfRange T) (hclosed : ∀ c, T c → T c.closed) : (s.forget h).OfRange T := by
  obtain ⟨c, rfl, hc⟩ := hs
  simp only [Scheme.forget]
  split
  · split
    · exact ⟨_, rfl, hclosed c hc⟩
    · exact ⟨c, rfl, hc⟩
  · exact ⟨c, rfl, hc⟩

section lasts

variable (hT : TemporalController.Lasts life T)

include hT

theorem ranging_activate : Keeps (Ranging T) (activate life a) := by
  refine triple_get_bind ?_
  rintro ⟨_, s⟩ ⟨c, rfl, hc⟩
  exact ranging_lift hT.activate hc

theorem ranging_tick : Keeps (Ranging T) (tick life now) := by
  refine triple_get_bind ?_
  rintro ⟨_, s⟩ ⟨c, rfl, hc⟩
  exact ranging_lift hT.sync hc

end lasts

def Past (now : Int64) : Scheme → Prop
  | .temporal c => c.level.stop ≤ now → c.Over
  | _ => True

theorem timed_past : Timed now (Past now) (Past now) where
  tick := by
    intro σ life l _
    refine triple_get_bind fun (scheme, s) _ => ?_
    cases scheme with
    | temporal c =>
        exact lift_triple ((TemporalController.settled_sync _ trivial).imp (fun _ _ h => h.past)
          fun _ _ h => h)
    | episode c => exact lift_triple (ends_of_state (P := fun _ => True) trivial)
    | _ => exact triple_return trivial
  activate := by
    intro σ life l a _ ha _
    refine triple_get_bind fun (scheme, s) hs => ?_
    subst hs
    cases l with
    | temporal tl =>
        exact lift_triple ((TemporalController.settled_activate ha _ trivial).imp
          (fun _ _ h => h.past) fun _ _ _ => trivial)
    | _ => exact lift_triple (ends_of_state (P := fun _ => True) trivial)
  weaken _ h := h

end Scheme

inductive Turn where
  | activate (a : Activation)
  | route (e : Event)
  | tick (now : Int64)
  | restrict (ranges : List BucketRange)

def Turn.take (life : Lifecycle σ) : Turn → Act (Controller × σ) Unit
  | .activate a => Controller.activate life a
  | .route e => do
      let _ ← Controller.route life e
  | .tick now => Controller.tick life now
  | .restrict ranges => Controller.restrict life ranges

/-- What may become of a controller, and what it has asked for by then. Each of its turns may be in
a world of its own, where any start and any stop may fail. In between, somebody else may end a
child. -/
inductive Controller.Lives (c : Controller) : Asked → Controller → Prop where
  | here : Lives c [] c
  | turn {σ : Type} {asked : Asked} {c' : Controller} (turn : Turn) (life : Lifecycle σ) (s : σ) :
      Lives c asked c' →
      Lives c (turn.take life.noting (c', (s, asked))).2.2.2
        (turn.take life.noting (c', (s, asked))).2.1
  | forget {asked : Asked} {c' : Controller} (h : Handle) :
      Lives c asked c' → Lives c asked (c'.forget h)

namespace Controller

abbrev Ranging (T : TemporalController → σ → Prop) (p : Controller × σ) : Prop :=
  Scheme.Ranging T (p.1.scheme, p.2)

theorem ranging_run {α : Type} {x : Act (Scheme × σ) α} (hx : Keeps (Scheme.Ranging T) x) :
    Keeps (Ranging T) (run x) :=
  fun (c, s) h => run_ends (hx (c.scheme, s) h)

theorem ranging_turn (hT : TemporalController.Lasts life T) (turn : Turn) :
    Keeps (Ranging T) (turn.take life) := by
  cases turn with
  | activate a => exact ranging_run (Scheme.ranging_activate hT)
  | route e => exact (ranging_run Scheme.ranging_route).bind fun _ => keeps_pure
  | tick now => exact ranging_run (Scheme.ranging_tick hT)
  | restrict ranges => exact ranging_run Scheme.ranging_restrict

theorem Lives.spent {c c' : Controller} {asked : Asked} (h : c.Lives asked c')
    (hc : c.scheme.OfRange (TemporalController.Spent [])) :
    c'.scheme.OfRange (TemporalController.Spent asked.started) := by
  induction h with
  | here => exact hc
  | turn turn life s _ ih =>
      exact (ranging_turn TemporalController.lasts_spent turn (_, (s, _)) ih).state
  | forget h _ ih => exact ih.forget fun _ => TemporalController.Spent.closed

def Keeping (id : ControllerId) (T : TemporalController → Prop) (c : Controller) : Prop :=
  c.id = id → c.scheme.OfRange T

section keeping

variable {α : Type} {id : ControllerId} {T : TemporalController → Prop}
  {x : Act (Scheme × σ) α}

theorem keeping_other {c : Controller} {s : σ} (hid : c.id ≠ id) :
    Ends (fun _ p => Keeping id T p.1) (fun _ p => Keeping id T p.1) (run x (c, s)) :=
  run_ends (ends_of_state (P := fun p : Scheme × σ => Keeping id T { c with scheme := p.1 })
    fun heq => absurd heq hid)

theorem keeping_run (hx : Keeps (Scheme.Ranging fun c _ => T c) x) :
    Keeps (fun p => Keeping id T p.1) (run x) := by
  rintro ⟨c, s⟩ h
  by_cases hid : c.id = id
  · exact run_ends ((hx (c.scheme, s) (h hid)).imp (fun _ _ hp _ => hp) fun _ _ hp _ => hp)
  · exact keeping_other hid

end keeping

end Controller

section habit

variable {T : TemporalController → Prop} {op : Operation} {id : ControllerId} {L : Level → Prop}

theorem habit_keeping (hT : TemporalController.Lasting T) :
    op.Habit (id.number + 1) L (Controller.Keeping id T) (Controller.Keeping id T) where
  wakes life a l id' place nesting s _ hid := by
    have hne : id' ≠ id := by
      rintro rfl
      exact Nat.not_succ_le_self _ hid
    exact (Controller.keeping_other hne).imp (fun _ _ h => h) fun _ _ _ => trivial
  lasting _ h := h
  route life e _ := Controller.keeping_run Scheme.ranging_route
  tick life now _ := Controller.keeping_run (Scheme.ranging_tick (hT.lasts life))
  restrict life level ranges _ := Controller.keeping_run Scheme.ranging_restrict

end habit

namespace Context

variable {c c' c'' : Context} {runtime : Runtime} {op : Operation} {id : ControllerId}
  {T : TemporalController → Prop}

inductive Proceeds (c : Context) : Context → Prop where
  | here : Proceeds c c
  | step {c' : Context} (runtime : Runtime) (op : Operation) : Proceeds c c' → op.Regular →
      Proceeds c (perform runtime op c').2

theorem Proceeds.reachable (h : Proceeds c c') (hc : Reachable Operation.Regular c) :
    Reachable Operation.Regular c' := by
  induction h with
  | here => exact hc
  | step runtime op _ hop ih => exact .step runtime op ih hop

/-- The controller with the number, if there is one, is that of a time range, with `T`. No other
will have the number. -/
def Ranges (id : ControllerId) (T : TemporalController → Prop) (c : Context) : Prop :=
  c.Reigns (fun _ => True) (Steady (fun _ _ _ => True) (Controller.Keeping id T)) (id.number + 1)

theorem Ranges.perform (h : c.Ranges id T) (hT : TemporalController.Lasting T) (hop : op.Regular) :
    (perform runtime op c).2.Ranges id T := by
  have hdone : Ends _ _ (Context.perform runtime op c) :=
    perform_reigns False hop (regime_any fun h => h) (habit_keeping hT) False.elim
      (fun _ _ _ h => h) (fun _ _ _ _ _ _ _ _ _ _ _ => trivial) ?_ h
  · exact (hdone.imp (fun _ _ h => h) fun _ _ h => h.2).state
  · intro g termination _ below x xs hx _ _
    exact ⟨trivial, fun hid => (hx.2 hid).forget fun _ => hT.closed⟩

theorem Ranges.proceeds (h : c.Ranges id T) (hT : TemporalController.Lasting T)
    (hrun : Proceeds c c') : c'.Ranges id T := by
  induction hrun with
  | here => exact h
  | step runtime op _ hop ih => exact ih.perform hT hop

theorem ranges_of_entries (hid : id.number + 1 ≤ c.books.nextController)
    (hT : ∀ x ∈ c.entries, x.id = id → x.controller.scheme.OfRange T) : c.Ranges id T :=
  (Reigns.of_entries (F := fun x _ => Controller.Keeping id T x) (fun _ _ => trivial) hid hT).mono
    fun _ _ _ h => ⟨trivial, h⟩

theorem Ranges.entries (h : c.Ranges id T) :
    ∀ x ∈ c.entries, x.id = id → x.controller.scheme.OfRange T :=
  (h.mono fun _ _ _ h => h.2).entries (F := fun x _ => Controller.Keeping id T x)

def Childless (id : ControllerId) (c : Context) : Prop :=
  ∀ x ∈ c.entries, x.id = id → x.handles = []

theorem mem_handles_range (h : Reachable Operation.Regular c) {x : Entry} (hx : x ∈ c.entries)
    {t : TemporalController} (ht : x.controller.scheme = .temporal t) {m : Key × Handle} :
    m ∈ x.handles ↔ t.child = some m := by
  have hmem : m ∈ x.controller.children.entries ↔ m ∈ x.handles :=
    ((controllers_agree h).children x hx).mem_iff
  rw [← hmem, Controller.children, ht]
  cases hchild : t.child with
  | none => simp [TemporalController.children_none hchild]
  | some m' =>
      obtain ⟨k, g⟩ := m'
      rw [TemporalController.children_some hchild, OrderedMap.entries_singleton,
        List.mem_singleton, Option.some.injEq, eq_comm]

theorem Ranges.childless (h : c.Ranges id TemporalController.Over)
    (hreach : Reachable Operation.Regular c) : c.Childless id := by
  intro x hx hid
  obtain ⟨t, ht, hover⟩ := h.entries x hx hid
  refine List.eq_nil_iff_forall_not_mem.2 fun m hm => ?_
  rw [mem_handles_range hreach hx ht, hover.2] at hm
  cases hm

theorem Ranges.ended {h : Handle} (hranges : c.Ranges id (TemporalController.Bound h))
    (hreach : Reachable Operation.Regular c) (hnone : c.Childless id) :
    c.Ranges id TemporalController.Over := by
  refine ranges_of_entries hranges.since fun x hx hid => ?_
  obtain ⟨t, ht, hbound⟩ := hranges.entries x hx hid
  refine ⟨t, ht, hbound.resolve_left ?_⟩
  rintro ⟨k, hchild⟩
  have hmem : (k, h) ∈ x.handles := (mem_handles_range hreach hx ht).2 hchild
  rw [hnone x hx hid] at hmem
  cases hmem

/-- A time range has one child at most, always the same one, and none once that child or the range
is over. -/
structure OpensOnce (c : Context) (x : Entry) (l : TemporalLevel) : Prop where
  few : x.handles.length ≤ 1
  same : ∀ m ∈ x.handles, ∀ c', Proceeds c c' → ∀ y ∈ c'.entries, y.id = x.id →
    ∀ m' ∈ y.handles, m'.2 = m.2
  gone : x.handles ≠ [] → ∀ c' c'', Proceeds c c' → c'.Childless x.id → Proceeds c' c'' →
    c''.Childless x.id
  past : ∀ (runtime : Runtime) (now : Int64), l.stop ≤ now →
    x.id ∉ missed runtime now (c.controllers.map Controller.id) { c with now } →
    ∀ c', Proceeds (advance runtime now c).2 c' → c'.Childless x.id

theorem opensOnce {x : Entry} {l : TemporalLevel} (hc : Reachable Operation.Regular c)
    (hx : x ∈ c.entries) (hlevel : x.controller.level = .temporal l) : c.OpensOnce x l := by
  obtain ⟨t, ht, hl⟩ : x.controller.scheme.OfRange fun t => t.level = l := by
    rw [Controller.level] at hlevel
    cases hscheme : x.controller.scheme with
    | temporal t =>
        rw [hscheme] at hlevel
        exact ⟨t, rfl, Level.temporal.inj hlevel⟩
    | _ =>
        rw [hscheme] at hlevel
        cases hlevel
  have hsound : c.Sound False := hc.sound False.elim
  have hlive : x.id.number + 1 ≤ c.books.nextController :=
    hsound.lt_of_live x.id (List.mem_map_of_mem hx)
  have hranges {T : TemporalController → Prop} (hT : T t) : c.Ranges x.id T := by
    refine ranges_of_entries hlive fun y hy hid => ?_
    obtain rfl : y = x :=
      List.inj_on_of_nodup_map (entries_arranged (hc.mono fun _ _ => trivial)).ids hy hx hid
    exact ⟨t, ht, hT⟩
  have hbound {m : Key × Handle} (hm : m ∈ x.handles) :
      c.Ranges x.id (TemporalController.Bound m.2) :=
    hranges (.inl ⟨m.1, (mem_handles_range hc hx ht).1 hm⟩)
  refine ⟨?_, fun m hm c' hrun y hy hid m' hm' => ?_, fun hne c' c'' hrun hnone hrun' => ?_,
    fun runtime now hstop hturn c' hrun => ?_⟩
  · rw [← ((controllers_agree hc).children x hx).length_eq, Controller.children, ht]
    exact TemporalController.length_children_le
  · have hc' := hrun.reachable hc
    obtain ⟨t', ht', hsame⟩ :=
      ((hbound hm).proceeds TemporalController.lasting_bound hrun).entries y hy hid
    have hchild' := (mem_handles_range hc' hy ht').1 hm'
    rcases hsame with ⟨k, hchild⟩ | hover
    · have heq : (k, m.2) = m' := Option.some.inj (hchild.symm.trans hchild')
      rw [← heq]
    · rw [hover.2] at hchild'
      cases hchild'
  · obtain ⟨m, hm⟩ := List.exists_mem_of_ne_nil _ hne
    have hc' := hrun.reachable hc
    have hover : c'.Ranges x.id TemporalController.Over :=
      ((hbound hm).proceeds TemporalController.lasting_bound hrun).ended hc' hnone
    exact (hover.proceeds TemporalController.lasting_over hrun').childless (hrun'.reachable hc')
  · have hregular : (Operation.advance now).Regular := trivial
    have hadvanced : Reachable Operation.Regular (advance runtime now c).2 :=
      hc.step runtime (.advance now) hregular
    have hlevels : (advance runtime now c).2.Ranges x.id fun t => t.level = l :=
      (hranges hl).perform TemporalController.lasting_level hregular
    have hpast : Underway (Scheme.Past now) (c.controllers.map Controller.id) now
        (missed runtime now (c.controllers.map Controller.id) { c with now })
        (advance runtime now c).2 := by
      rw [advance_eq]
      exact underway_missed Scheme.timed_past (underway_start hsound)
    have hover : (advance runtime now c).2.Ranges x.id TemporalController.Over := by
      refine ranges_of_entries hlevels.since fun y hy hid => ?_
      obtain ⟨t', ht', rfl⟩ := hlevels.entries y hy hid
      have hclosed := hpast.current y hy (hid ▸ hturn)
      rw [ht'] at hclosed
      exact ⟨t', ht', hclosed hstop⟩
    exact (hover.proceeds TemporalController.lasting_over hrun).childless (hrun.reachable hadvanced)

/-- A time range opens once. Whatever clock, starts and stops do, its controller starts one child at
most; and whatever is done to the context, it never has another one. -/
theorem range_opens_once (l : TemporalLevel) :
    (∀ {id : ControllerId} {place : UInt32} {nesting : Nat} {asked : Asked} {x : Controller},
      (Controller.create (.temporal l) id place nesting).Lives asked x →
        asked.started.length ≤ 1) ∧
    ∀ {c : Context} {x : Entry}, Reachable Operation.Regular c → x ∈ c.entries →
      x.controller.level = .temporal l → c.OpensOnce x l := by
  refine ⟨fun hlives => ?_, opensOnce⟩
  obtain ⟨t, -, hspent⟩ := hlives.spent
    ⟨_, rfl, Nat.zero_le 1, by rintro _ ⟨⟩, fun _ _ => rfl⟩
  exact hspent.few

theorem range_opens_once_shifted :
    let l : TemporalLevel := { name := "turn", start := 0, stop := 10 }
    (∃ asked x, (Controller.create (.temporal l) ⟨0⟩ 0 1).Lives asked x ∧ asked.length = 2 ∧
      asked.started.length ≤ 1) ∧
    ∃ x ∈ shifted.entries, x.id = ⟨1⟩ ∧ x.handles.length = 1 ∧ shifted.OpensOnce x l ∧
      (advance .collecting 5 (advance stuck 10 shifted).2).2.Childless ⟨1⟩ := by
  intro l
  let idle : Lifecycle Unit := ⟨fun _ => fail (.unsupported "idle"), fun _ => pure ()⟩
  let willing : Lifecycle Unit := ⟨fun _ => pure (.leaf ⟨0⟩ 0 0), fun _ => pure ()⟩
  have hlives := ((Controller.Lives.here (c := .create (.temporal l) ⟨0⟩ 0 1)).turn
    (.tick 3) idle ()).turn (.tick 4) willing ()
  refine ⟨⟨_, _, hlives, rfl, (range_opens_once l).1 hlives⟩, ?_⟩
  obtain ⟨x, hx, hid, hlevel, hone⟩ : ∃ x ∈ shifted.entries, x.id = ⟨1⟩ ∧
      x.controller.level = .temporal l ∧ x.handles.length = 1 := by decide +kernel
  have honce : shifted.OpensOnce x l := (range_opens_once l).2 reachable_shifted hx hlevel
  have hturn : x.id ∉ missed stuck 10 (shifted.controllers.map Controller.id)
      { shifted with now := 10 } := by
    rw [hid]
    decide +kernel
  have hlater : Proceeds (advance stuck 10 shifted).2
      (advance .collecting 5 (advance stuck 10 shifted).2).2 :=
    Proceeds.here.step .collecting (.advance 5) trivial
  refine ⟨x, hx, hid, hone, honce, ?_⟩
  rw [← hid]
  exact honce.past stuck 10 (by decide) hturn _ hlater

end Context

end EventContexts
