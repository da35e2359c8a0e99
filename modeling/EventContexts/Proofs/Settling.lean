import EventContexts.Proofs.Expiry
/-!
The clock leaves a context at rest: one tick brings every controller to where the same tick does
nothing, whether it reacted in its turn or woke up under one that did.
-/

namespace EventContexts

open Act

variable {σ : Type} {life : Lifecycle σ} {now : Int64}

namespace EpisodeController

theorem expired_of_due {c : EpisodeController} (h : Due c.level now [] c) {d : Int64}
    (hstop : c.level.stop = .after d) : c.expired d now = [] := by
  refine List.filter_eq_nil_iff.2 fun (k, handle) hm hexpired => ?_
  cases k with
  | episode start number =>
      have hle : saturatingAdd start d ≤ now := of_decide_eq_true hexpired
      have hk : .episode start number ∈ c.children.keys := List.mem_map_of_mem hm
      exact List.not_mem_nil (h.due _ hk ⟨d, hstop, hle⟩)
  | _ => cases hexpired

theorem tick_of_due {c : EpisodeController} (h : Due c.level now [] c) (s : σ) :
    tick life now (c, s) = (.ok (), (c, s)) := by
  have hclock : { c with now } = c := h.clock ▸ rfl
  cases hstop : c.level.stop with
  | event pattern =>
      simp [tick, Act.first, Act.modify, Act.get, bind_apply, hclock, hstop, pure_apply]
  | after d =>
      have hexpired := expired_of_due h hstop
      simp [tick, Act.first, Act.modify, Act.get, bind_apply, hclock, hstop, hexpired, Act.forAll,
        pure_apply]

end EpisodeController

namespace TemporalController

variable {trigger : Option Event} {a : Activation} {c : TemporalController}

def Over (c : TemporalController) : Prop := c.finished = true ∧ c.child = none

structure Settled (now : Int64) (c : TemporalController) : Prop where
  past : c.level.stop ≤ now → c.Over
  due : ¬ c.level.stop ≤ now → c.level.start ≤ now → c.child = none → c.finished = true

theorem sync_of_settled (h : c.Settled now) (s : σ) :
    sync life now trigger (c, s) = (.ok (), (c, s)) := by
  by_cases hstop : c.level.stop ≤ now
  · obtain ⟨hfinished, hchild⟩ := h.past hstop
    have hc : { c with finished := true, child := none } = c := by
      rw [← hfinished, ← hchild]
    simp [sync, finish, Act.get, Act.first, Act.modify, bind_apply, pure_apply, hstop, hc, hchild]
  · have hstart : ¬ (c.level.start ≤ now ∧ c.child.isNone ∧ c.finished = false) := by
      rintro ⟨hstart, hnone, hfinished⟩
      have htrue := h.due hstop hstart (Option.isNone_iff_eq_none.1 hnone)
      rw [htrue] at hfinished
      cases hfinished
    simp only [sync, Act.get, bind_apply, hstop, hstart, if_false, pure_apply]

theorem settled_sync : Triple (fun _ => True) (sync life now trigger)
    (fun _ (p : TemporalController × σ) => p.1.Settled now)
    (fun _ p => p.1.level.stop ≤ now → p.1.Over) := by
  refine triple_get_bind fun (c, s) _ => ?_
  by_cases hstop : c.level.stop ≤ now
  · simp only [hstop, if_true]
    refine triple_get_bind fun (c', s') hc' => ?_
    obtain ⟨rfl, rfl⟩ := Prod.mk.inj hc'
    have hover : Settled now { c' with finished := true, child := none } :=
      ⟨fun _ => ⟨rfl, rfl⟩, fun h => absurd hstop h⟩
    refine Triple.bind (Q := fun _ => Both (Settled now) fun _ => True) ?_ fun _ => ?_
    · exact Triple.first fun _ => triple_modify fun m hm => by
        obtain ⟨rfl, -⟩ := Prod.mk.inj hm
        exact ⟨hover, trivial⟩
    · split
      · exact (keeps_second (life.serves_true.stop _)).imp (fun _ h => h) (fun _ _ h => h.1)
          fun _ _ h => h.1.past
      · exact triple_pure fun _ h => h.1
  · let open? (m : TemporalController) : Prop := m.level = c.level
    have hopen {m : TemporalController} (hm : open? m) : ¬ m.level.stop ≤ now := by rwa [hm]
    simp only [hstop, if_false]
    split
    · refine Triple.bind (Q := fun _ => Both open? fun _ => True) ?_ fun _ => ?_
      · exact Triple.first fun _ => triple_modify fun m hm => by
          obtain ⟨rfl, -⟩ := Prod.mk.inj hm
          exact ⟨rfl, trivial⟩
      · refine Triple.bind (Q := fun _ => Both open? fun _ => True) ?_ fun handle => ?_
        · exact (keeps_second (life.serves_true.start trivial)).imp (fun _ h => h)
            (fun _ _ h => h) fun _ _ h hle => absurd hle (hopen h.1)
        · refine Triple.first fun _ => triple_modify fun m hm => ?_
          exact ⟨fun h => absurd h (hopen hm.1), fun _ _ hnone => by cases hnone⟩
    · next hstart =>
        refine triple_return ⟨fun h => absurd h hstop, fun _ hle hnone => ?_⟩
        by_contra hfinished
        exact hstart ⟨hle, hnone ▸ rfl, Bool.eq_false_iff.2 hfinished⟩

theorem settled_activate (ha : a.now = now) : Triple (fun _ => True) (activate life a)
    (fun _ (p : TemporalController × σ) => p.1.Settled now) (fun _ _ => True) := by
  refine Triple.bind (Q := fun _ _ => True) (fun _ _ => trivial) fun _ => ?_
  rw [ha]
  exact settled_sync.imp (fun _ h => h) (fun _ _ h => h) fun _ _ _ => trivial

end TemporalController

namespace Scheme

def Settled (now : Int64) : Scheme → Prop
  | .episode c => EpisodeController.Due c.level now [] c
  | .temporal c => c.Settled now
  | _ => True

theorem tick_of_settled {s : Scheme} (h : s.Settled now) (t : σ) :
    tick life now (s, t) = (.ok (), (s, t)) := by
  cases s with
  | episode c =>
      have htick : EpisodeController.tick life now (c, t) = (.ok (), (c, t)) :=
        EpisodeController.tick_of_due h t
      simp only [tick, Act.get, bind_apply, lift, htick]
  | temporal c =>
      have hsync : TemporalController.sync life now none (c, t) = (.ok (), (c, t)) :=
        TemporalController.sync_of_settled h t
      simp only [tick, Act.get, bind_apply, lift, hsync]
  | _ => rfl

theorem settled_of_due {el : EpisodeLevel} {c : EpisodeController}
    (h : EpisodeController.Due el now [] c) : (Scheme.episode c).Settled now := by
  obtain rfl := h.level
  exact h

theorem timed_settled (hnow : now < Int64.maxValue) :
    Scheme.Timed now (Settled now) fun _ => True where
  tick := by
    intro σ life l hflaw
    refine triple_get_bind fun (scheme, s) hl => ?_
    subst hl
    cases scheme with
    | episode c =>
        refine lift_triple ((EpisodeController.seeing_tick hflaw hnow _ ⟨rfl, trivial⟩).imp ?_ ?_)
        · exact fun _ _ h => settled_of_due h.1
        · exact fun _ _ _ => trivial
    | temporal c =>
        exact lift_triple ((TemporalController.settled_sync _ trivial).imp (fun _ _ h => h)
          fun _ _ _ => trivial)
    | _ => exact triple_return trivial
  activate := by
    intro σ life l a hflaw ha htrigger
    refine triple_get_bind fun (scheme, s) hs => ?_
    subst hs
    cases l with
    | episode el =>
        refine lift_triple ((EpisodeController.seeing_activate hflaw hnow ha htrigger _
          ⟨⟨rfl, rfl⟩, trivial⟩).imp ?_ ?_)
        · exact fun _ _ h => settled_of_due h.1
        · exact fun _ _ _ => trivial
    | temporal tl =>
        exact lift_triple (TemporalController.settled_activate ha _ trivial)
    | _ => exact lift_triple (ends_of_state (P := fun _ => True) trivial)
  weaken _ _ := trivial

end Scheme

namespace Context

variable {c : Context} {runtime : Runtime} {ids done : List ControllerId}

theorem tickEach_of_settled (h : Underway (Scheme.Settled now) ids now [] c) :
    tickEach runtime now done c = (.ok (), c) := by
  refine Act.forEach_same fun id _ => ?_
  let f (below : List Level) (path : Path) : Act (Node (Children below) × Books) Unit :=
    (c.setting runtime).drive below path fun life => Controller.tick life now
  show (c.onRoot fun tree => Node.atController id f _ [] tree).getD (.ok (), c) = (.ok (), c)
  rcases c.atController_cases id f (.ok (), c) with ⟨heq, -⟩ | ⟨root, root', deep, way, n, hroot,
    -, hgraft, heq⟩
  · exact heq
  · obtain ⟨parent, place, depth, hmem⟩ := hgraft.entry_mem none 0 1
    rw [← entries_of_root hroot] at hmem
    have hsettled : n.controller.scheme.Settled now := by
      rw [← Node.controller_entry]
      exact h.current _ hmem List.not_mem_nil
    have hf : f deep way (n, c.books) = (.ok (), (n, c.books)) := by
      simp only [f, Setting.drive, Controller.tick, Controller.run,
        Scheme.tick_of_settled hsettled]
    rw [hf] at hgraft heq
    rw [heq, hgraft.same, ← hroot]

theorem advance_of_settled (h : Underway (Scheme.Settled now) ids now [] c) :
    advance runtime now c = (.ok (), c) := by
  have hclock : { c with now } = c := by
    obtain rfl := h.clock
    rfl
  rw [advance_eq, hclock]
  exact tickEach_of_settled h

/-- The clock may tick twice at one time: once it has ticked without a failure, nothing is left for
it to do, whatever would run by then. At the last of all times a duration has no end after its
start, so that each tick ends an episode and starts the next. -/
theorem advance_idempotent {allowed : Operation → Prop} (h : Reachable allowed c)
    (hnow : now < Int64.maxValue) (hok : (advance runtime now c).1 = .ok ()) (runtime' : Runtime) :
    advance runtime' now (advance runtime now c).2 = (.ok (), (advance runtime now c).2) := by
  have hrun : tickEach runtime now (c.controllers.map Controller.id) { c with now } =
      (.ok (), (advance runtime now c).2) := by
    rw [← advance_eq, ← hok]
  have hstart : Underway (Scheme.Settled now) (c.controllers.map Controller.id) now
      (c.controllers.map Controller.id ++ []) { c with now } := by
    rw [List.append_nil]
    exact underway_start (h.sound False.elim)
  have hsettled : Underway (Scheme.Settled now) (c.controllers.map Controller.id) now []
      (advance runtime now c).2 :=
    (underway_tickEach (Scheme.timed_settled hnow) _ _ hstart).congr hrun
  exact advance_of_settled hsettled

def laps : Context :=
  let turns : Declaration :=
    { name := "laps"
      outer := .temporal { name := "day", start := 0, stop := 100 }
      inner := [.episode { name := "lap", start := .now, stop := .after 10 },
        .temporal { name := "turn", start := 5, stop := 50 }]
      sound := by decide
      distinct := by decide }
  (perform .collecting (.attach seen) (Context.new turns)).2

theorem advance_idempotent_laps :
    laps.allocatedIds = [] ∧ (advance .collecting 12 laps).1 = .ok () ∧
      (advance .collecting 12 laps).2.allocatedIds = [0] ∧
      advance stuck 12 (advance .collecting 12 laps).2 =
        (.ok (), (advance .collecting 12 laps).2) := by
  have hreachable : Reachable Operation.Regular laps :=
    .step .collecting (.attach seen) (.new ..) trivial
  have hok : (advance .collecting 12 laps).1 = .ok () := by decide +kernel
  exact ⟨by decide +kernel, hok, by decide +kernel,
    advance_idempotent hreachable (by decide) hok stuck⟩

end Context

end EventContexts
