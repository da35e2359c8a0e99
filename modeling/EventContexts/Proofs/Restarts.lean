import EventContexts.Proofs.Expiry
import EventContexts.Proofs.RegimeContexts

namespace EventContexts

open Act

def Level.FromNow : Level → Prop
  | .episode l => l.start = .now
  | _ => False

instance : DecidablePred Level.FromNow
  | .episode l => inferInstanceAs (Decidable (l.start = .now))
  | .keyed _ | .category _ | .hash _ | .temporal _ => isFalse id

namespace Scheme

def Single (s : Scheme) : Prop := s.level.FromNow → s.children.entries.length ≤ 1

def Running (s : Scheme) : Prop := s.level.FromNow → s.children.entries ≠ []

end Scheme

variable {σ α : Type} {life : Lifecycle σ} {e : Event}

namespace EpisodeController

abbrev Running (p : EpisodeController × σ) : Prop := (Scheme.episode p.1).Running

theorem startEpisode_running {P : EpisodeController × σ → Prop} {start : Int64}
    {initiator : Option Event} :
    Triple P (startEpisode life start initiator) (fun _ => Running) fun _ _ => True := by
  refine triple_get_bind fun (c, s) _ => ?_
  refine Triple.bind (Q := fun _ _ => True) (triple_ofExcept (fun _ _ _ _ => trivial)
    fun _ _ _ _ => trivial) fun path => ?_
  refine Triple.bind (Q := fun _ _ => True) (fun _ _ => ends_of_state trivial) fun h => ?_
  refine Triple.first fun _ => triple_modify fun m _ _ hnone => ?_
  have hmem : Key.episode start c.nextNumber ∈
      (m.children.insert (.episode start c.nextNumber) h).keys :=
    OrderedMap.mem_keys_insert.2 (.inl rfl)
  have hnone : (m.children.insert (.episode start c.nextNumber) h).entries = [] := hnone
  rw [OrderedMap.keys, hnone] at hmem
  cases hmem

theorem restartIfNow_running {P : EpisodeController × σ → Prop} :
    Triple P (restartIfNow life) (fun _ => Running) fun _ _ => True := by
  refine triple_get_bind fun (c, s) _ => ?_
  simp only
  split
  · exact startEpisode_running
  · next h =>
      exact triple_return fun hnow hnone => h ⟨hnow, List.isEmpty_iff.2 hnone⟩

theorem activate_running {a : Activation} :
    Triple (fun _ => True) (activate life a) (fun _ => Running) fun _ _ => True := by
  refine Triple.bind (Q := fun _ _ => True) (fun _ _ => trivial) fun _ => ?_
  refine triple_get_bind fun (c, s) _ => ?_
  cases hstart : c.level.start with
  | now =>
      simp only [hstart]
      exact startEpisode_running
  | event pattern =>
      have hvacuous : Running (c, s) := by
        intro hnow
        have hnow : c.level.start = .now := hnow
        rw [hstart] at hnow
        cases hnow
      cases a.trigger with
      | none =>
          simp only [hstart]
          exact triple_return hvacuous
      | some e =>
          simp only [hstart]
          split
          · exact startEpisode_running
          · exact triple_return hvacuous

theorem route_running :
    Triple Running (route life e) (fun _ => Running) fun _ _ => True := by
  refine Triple.bind (Q := fun _ => Running) ?_ fun _ => ?_
  · refine triple_get_bind fun (c, s) h => ?_
    simp only
    split
    · refine Triple.bind (Q := fun _ _ => True) (fun _ _ => ends_of_state trivial) fun _ => ?_
      exact restartIfNow_running
    · exact triple_return h
  · refine triple_get_bind fun (c, s) h => ?_
    have hvalues : Triple (Running (σ := σ)) (get >>= fun p => pure p.1.children.values)
        (fun _ => Running) fun _ _ => True := triple_get_bind fun _ h => triple_return h
    simp only
    split
    · exact startEpisode_running.bind fun _ => hvalues
    · exact hvalues.starting h

theorem tick_running {now : Int64} :
    Triple Running (tick life now) (fun _ => Running) fun _ _ => True := by
  refine Triple.bind (Q := fun _ => Running) ?_ fun _ => ?_
  · exact Triple.first fun s => triple_modify fun c h => h
  · refine triple_get_bind fun (c, s) h => ?_
    cases hstop : c.level.stop with
    | event pattern =>
        simp only [hstop]
        exact triple_return h
    | after duration =>
        simp only [hstop]
        by_cases hending : c.expired duration now = []
        · simp only [hending]
          exact triple_return h
        · refine Triple.bind (Q := fun _ _ => True) (fun _ _ => ends_of_state trivial) fun _ => ?_
          rw [if_neg (by simpa using hending)]
          exact restartIfNow_running

end EpisodeController

namespace Scheme

theorem lift_running {μ : Type} {wrap : μ → Scheme} {x : Act (μ × σ) α} {c : μ} {s : Scheme}
    {t : σ} (hwrap : ∀ c, ¬ (wrap c).level.FromNow) : Triple (fun p => p = (s, t)) (lift wrap x c)
      (fun _ p => p.1.Running) fun _ p => p.1.Running :=
  lift_triple (ends_of_state (P := fun p : μ × σ => (wrap p.1).Running)
    fun hnow => absurd hnow (hwrap _))

theorem activate_running {a : Activation} {l : Level} :
    Triple (fun p => p.1 = ofLevel l) (activate life a) (fun _ p => p.1.Running)
      fun _ _ => True := by
  refine triple_get_bind ?_
  rintro ⟨_, s⟩ rfl
  cases l with
  | episode l => exact lift_triple (EpisodeController.activate_running _ trivial)
  | _ => exact (lift_running fun _ => id).imp (fun _ h => h) (fun _ _ h => h) fun _ _ _ => trivial

theorem route_running :
    Triple (fun p => p.1.Running) (route life e) (fun _ p => p.1.Running) fun _ _ => True := by
  refine triple_get_bind fun (s, t) h => ?_
  cases s with
  | episode c => exact lift_triple (EpisodeController.route_running (c, t) h)
  | category c => exact triple_return h
  | temporal c => exact triple_return h
  | _ => exact (lift_running fun _ => id).imp (fun _ h => h) (fun _ _ h => h) fun _ _ _ => trivial

theorem tick_running {now : Int64} :
    Triple (fun p => p.1.Running) (tick life now) (fun _ p => p.1.Running) fun _ _ => True := by
  refine triple_get_bind fun (s, t) h => ?_
  cases s with
  | episode c => exact lift_triple (EpisodeController.tick_running (c, t) h)
  | temporal c =>
      exact (lift_running fun _ => id).imp (fun _ h => h) (fun _ _ h => h) fun _ _ _ => trivial
  | _ => exact triple_return h

theorem restrict_running {ranges : List BucketRange} :
    Triple (fun p => p.1.Running) (restrict life ranges) (fun _ p => p.1.Running)
      fun _ p => p.1.Running := by
  refine triple_get_bind fun (s, t) h => ?_
  cases s with
  | hash c => exact lift_running fun _ => id
  | _ =>
      apply triple_fail
      rintro _ rfl
      exact h

theorem single_started {o : Occasion} {s : Scheme} {r : Request} (h : s.Single) (hr : s.Asks o r)
    {g : Handle} : (s.started r.key g).Single := by
  cases s with
  | episode c =>
      intro hnow
      obtain ⟨start, -, -, -, hnone⟩ := hr.opens
      have hnone : c.children.entries = [] := hnone hnow
      have hnew : r.key ∉ c.children.keys := by simp [OrderedMap.keys, hnone]
      have hone : (c.children.insert r.key g).entries = [(r.key, g)] := by
        rw [OrderedMap.entries_insert hnew, hnone, List.nil_append]
      exact Nat.le_of_eq (congrArg List.length hone)
  | _ => exact fun hnow => hnow.elim

theorem single_ended {s : Scheme} {key : Key} (h : s.Single) : (s.ended key).Single := by
  cases s with
  | episode c => exact fun hnow => Nat.le_trans (List.length_filter_le ..) (h hnow)
  | _ => exact fun hnow => hnow.elim

theorem single_confined {s : Scheme} {ranges : List BucketRange} (h : s.Single) :
    (s.confined ranges).Single := by
  cases s with
  | hash c => exact fun hnow => hnow.elim
  | _ => exact h

theorem single_forget {s : Scheme} {h : Handle} (hs : s.Single) : (s.forget h).Single := by
  cases s with
  | episode c => exact fun hnow => Nat.le_trans (List.length_filter_le ..) (hs hnow)
  | temporal c =>
      intro hnow
      rw [level_forget] at hnow
      exact hnow.elim
  | _ => exact fun hnow => hnow.elim

theorem single_notes {o : Occasion} {s s' : Scheme} (h : s.Single) (hs : s.Notes o s') :
    s'.Single := by
  cases hs with
  | clock c now => exact h
  | recovered c p hp => exact fun hnow => hnow.elim
  | finished c hc => exact fun hnow => hnow.elim

end Scheme

theorem regime_single {o : Occasion} {since : Nat} (ho : ¬ o.plain) :
    Regime o since (fun _ => True) (fun _ => True) fun _ c _ => c.scheme.Single where
  fresh {l below id place nesting} _ _ _ := by
    have hnone : (Controller.create l id place nesting).scheme.children = .empty :=
      Scheme.children_ofLevel l
    rw [hnone]
    exact Nat.zero_le 1
  leaf h hr := Scheme.single_started h hr
  branch h hr _ _ := Scheme.single_started h hr
  ended h _ _ _ := Scheme.single_ended h
  notes h hs := Scheme.single_notes h hs
  plain h := absurd h ho
  tells _ := trivial
  claimed _ _ := trivial
  occupied _ _ _ := trivial

def Controller.Busy (id : ControllerId) (c : Controller) : Prop := c.id = id → c.scheme.Running

namespace Controller

variable {id : ControllerId}

theorem busy_run {x : Act (Scheme × σ) α} {R : Scheme → Prop} {c : Controller} {s : σ}
    (h : c.id = id →
      Ends (fun _ p => p.1.Running) (fun _ p => R p.1) (x (c.scheme, s))) :
    Ends (fun _ p => p.1.Busy id) (fun _ p => p.1.id = id → R p.1.scheme) (run x (c, s)) := by
  by_cases hid : c.id = id
  · exact run_ends ((h hid).imp (fun _ _ hp _ => hp) fun _ _ hp _ => hp)
  · refine run_ends ?_
    rcases x (c.scheme, s) with ⟨_ | _, p⟩
    · exact fun h => absurd h hid
    · exact fun h => absurd h hid

end Controller

namespace Operation

variable {op : Operation} {id : ControllerId}

def Drives : Operation → Prop
  | .process _ | .advance _ => True
  | _ => False

/-- An operation that ends so has left it to the controller with the number to end its children,
and has not failed where that controller may have had to act. -/
structure Spares (op : Operation) (id : ControllerId) (c : Context) (r : Except Error Unit) :
    Prop where
  driven : op.Drives → r = .ok ()
  ended : ∀ h termination, op = .terminate h termination → h.owner = id → ¬ c.Denotes h

theorem habit_busy {since : Nat} {L : Level → Prop} :
    op.Habit since L (Controller.Busy id) fun x => op.Drives ∨ x.Busy id where
  wakes life a l _ _ _ s _ _ := by
    have hrunning : Triple (fun p => p.1 = Scheme.ofLevel l) (Scheme.activate life a)
      (fun _ p => p.1.Running) fun _ _ => True := Scheme.activate_running
    exact (Controller.busy_run (R := fun _ => True) fun _ => hrunning (_, s) rfl).imp
      (fun _ _ h => h) fun _ _ _ => trivial
  lasting _ h := .inr h
  route life e hop p h := by
    have hdrives : op.Drives := hop ▸ trivial
    exact (Controller.busy_run (R := fun _ => True) fun hid =>
      Scheme.route_running (p.1.scheme, p.2) (h hid)).imp (fun _ _ h => h) fun _ _ _ => .inl hdrives
  tick life now hop p h := by
    have hdrives : op.Drives := hop ▸ trivial
    exact (Controller.busy_run (R := fun _ => True) fun hid =>
      Scheme.tick_running (p.1.scheme, p.2) (h hid)).imp (fun _ _ h => h) fun _ _ _ => .inl hdrives
  restrict life level ranges _ p h :=
    (Controller.busy_run fun hid => Scheme.restrict_running (p.1.scheme, p.2) (h hid)).imp
      (fun _ _ h => h) fun _ _ h => .inr h

end Operation

namespace Context

variable {c : Context} {runtime : Runtime} {op : Operation} {id : ControllerId}

/-- The controller with the number, if there is one, has had the ends of its children in its own
hands for as long as it is there. -/
inductive Undisturbed (id : ControllerId) : Context → Prop where
  | absent {c : Context} : Reachable Operation.Regular c → (∀ x ∈ c.entries, x.id ≠ id) →
      Undisturbed id c
  | step {c : Context} (runtime : Runtime) (op : Operation) : Undisturbed id c → op.Regular →
      op.Spares id c (perform runtime op c).1 → Undisturbed id (perform runtime op c).2

abbrev Single (P : Controller → Prop) (c : Context) : Prop :=
  c.Reigns (fun _ => True) (Steady (fun _ x _ => x.scheme.Single) P) 0

theorem single_perform {P Q : Controller → Prop} {G : Outlook} (hop : op.Regular)
    (hP : op.Habit 0 (fun _ => True) P Q)
    (hG : ∀ below x xs, G below x xs → x.scheme.Single ∧ P x)
    (hforget : ∀ h termination, op = .terminate h termination → ∀ below x xs, G below x xs →
      h ∈ xs.map Prod.snd → P (x.forget h))
    (h : c.Reigns (fun _ => True) G 0) :
    Ends (fun _ => Single P) (fun _ => Single Q) (perform runtime op c) := by
  refine (perform_reigns False hop (regime_single id) hP False.elim hG ?_ ?_ h).imp
    (fun _ _ h => h) fun _ _ h => h.2
  · rintro level ranges - - root - below x xs - hx
    exact Scheme.single_confined hx
  · exact fun g termination heq below x xs hx hg _ =>
      ⟨Scheme.single_forget (hG _ _ _ hx).1, hforget g termination heq _ _ _ hx hg⟩

theorem Reachable.single (h : Reachable Operation.Regular c) : Single (fun _ => True) c := by
  induction h with
  | new declaration options metrics recovery =>
      refine ⟨fun _ _ => trivial, Nat.zero_le _, ?_⟩
      rintro _ ⟨⟩
  | step runtime op _ hop ih =>
      exact (single_perform hop habit_any (fun _ _ _ h => h) (fun _ _ _ _ _ _ _ _ => trivial)
        ih).state

theorem Undisturbed.busy (h : c.Undisturbed id) : Single (Controller.Busy id) c := by
  have hentry {c : Context} (hc : Reachable Operation.Regular c)
      {F : Controller → List (Key × Handle) → Prop}
      (h : ∀ x ∈ c.entries, F x.controller x.handles) :
      c.Reigns (fun _ => True) (fun _ x xs => x.scheme.Single ∧ F x xs) 0 :=
    (hc.single.mono fun _ _ _ h => h.1).and (.of_entries (fun _ _ => trivial) (Nat.zero_le _) h)
  induction h with
  | absent h habsent =>
      exact hentry h fun x hx hid => absurd hid (habsent x hx)
  | @step c runtime op h hop hspares ih =>
      -- a child that is ended from outside is none of this controller's
      let G (below : List Level) (x : Controller) (xs : List (Key × Handle)) : Prop :=
        x.scheme.Single ∧ x.Busy id ∧ ∀ g termination, op = .terminate g termination →
          x.id = id → g ∉ xs.map Prod.snd
      have hG : c.Reigns (fun _ => True) G 0 := by
        refine (ih.and (.of_entries (fun _ _ => trivial) (Nat.zero_le _) ?_)).mono
          fun _ _ _ h => ⟨h.1.1, h.1.2, h.2⟩
        intro x hx g termination hg hid hmem
        have howner : g.owner = id := (Entry.owner_of_mem_handles hmem).symm.trans hid
        exact hspares.ended g termination hg howner ⟨x, hx, hmem⟩
      have hdone : Ends _ _ (perform runtime op c) :=
        single_perform hop Operation.habit_busy (fun _ _ _ h => ⟨h.1, h.2.1⟩)
          (fun g termination heq below x xs hx hg hid =>
            absurd hg (hx.2.2 g termination heq hid)) hG
      rcases hperform : perform runtime op c with ⟨_ | _, c'⟩
      · rw [hperform] at hdone hspares
        refine hdone.mono fun _ x _ hx => ⟨hx.1, hx.2.resolve_left fun hdrives => ?_⟩
        cases hspares.driven hdrives
      · rw [hperform] at hdone
        exact hdone

/-- A context that starts with the present has one episode at most, and it has one unless its last
one was ended from outside or an operation failed. -/
theorem now_runs_one (h : Reachable Operation.Regular c) {x : Entry} (hx : x ∈ c.entries)
    (hnow : x.controller.level.FromNow) :
    x.handles.length ≤ 1 ∧ (c.Undisturbed x.id → x.handles.length = 1) := by
  have hlength : x.controller.children.entries.length = x.handles.length :=
    ((controllers_agree h).children x hx).length_eq
  have hone : x.handles.length ≤ 1 := hlength ▸ (h.single.entries x hx).1 hnow
  refine ⟨hone, fun hundisturbed => Nat.le_antisymm hone ?_⟩
  rw [← hlength]
  exact List.length_pos_iff.2 ((hundisturbed.busy.entries x hx).2 rfl hnow)

theorem undisturbed_visited : (advance .collecting 20 visited).2.Undisturbed ⟨1⟩ := by
  have hnew (d : Declaration) : (Context.new d).Undisturbed ⟨1⟩ :=
    .absent (.new ..) fun x hx => absurd hx List.not_mem_nil
  refine .step .collecting (.advance 20) (.step .collecting (.process page)
    (.step .collecting (.attach _) (hnew _) trivial ⟨False.elim, by simp⟩) trivial ?_)
    trivial ?_
  · exact ⟨fun _ => by decide +kernel, by simp⟩
  · exact ⟨fun _ => by decide +kernel, by simp⟩

theorem visited_runs_one : ∃ x ∈ (advance .collecting 20 visited).2.entries,
    x.controller.level.FromNow ∧ (advance .collecting 20 visited).2.Undisturbed x.id ∧
      x.handles.length = 1 := by
  have hreach : Reachable Operation.Regular (advance .collecting 20 visited).2 :=
    .step .collecting (.advance 20) reachable_visited trivial
  obtain ⟨x, hx, hnow, hid⟩ : ∃ x ∈ (advance .collecting 20 visited).2.entries,
      x.controller.level.FromNow ∧ x.id = ⟨1⟩ := by decide +kernel
  have hundisturbed : (advance .collecting 20 visited).2.Undisturbed x.id :=
    hid ▸ undisturbed_visited
  exact ⟨x, hx, hnow, hundisturbed, (now_runs_one hreach hx hnow).2 hundisturbed⟩

/-- After an end that failed, or one from outside, nothing starts again as the clock goes on, though
every start would succeed. -/
theorem now_stays_idle :
    (∀ trace request, stuck.start trace request = .ok none) ∧ visited.options.limit = none ∧
      let failed := (advance stuck 20 visited).2
      let ended := (terminate stuck (.leaf ⟨1⟩ 0 0) none visited).2
      (advance stuck 20 visited).1 = .error (.stopFailed "pages" 0 "stuck") ∧
      (∀ c ∈ [failed, ended], Reachable Operation.Regular c ∧
        (advance stuck 30 c).1 = .ok () ∧
        ∃ x ∈ (advance stuck 30 c).2.entries, x.controller.level.FromNow ∧ x.handles = []) := by
  refine ⟨fun _ _ => rfl, rfl, by decide +kernel, fun c hc => ?_⟩
  rcases List.mem_pair.1 hc with rfl | rfl
  · refine ⟨.step stuck (.advance 20) reachable_visited trivial, ?_, ?_⟩
    · decide +kernel
    · decide +kernel
  · refine ⟨.step stuck (.terminate _ none) reachable_visited trivial, ?_, ?_⟩
    · decide +kernel
    · decide +kernel

end Context

end EventContexts
