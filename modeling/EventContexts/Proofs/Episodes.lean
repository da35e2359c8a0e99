import EventContexts.Proofs.Courses
import EventContexts.Proofs.Narrowing
import EventContexts.Proofs.Retention
import EventContexts.Proofs.TwinSteps
/-!
Under one level of episodes between events, the live partitions are those of the episodes that the
events so far leave, each with the events since its own start. An event ends episodes before it goes
to those that are left, and starts one last; what starts with it has already seen it.
-/

namespace EventContexts

open Act

namespace EpisodeLevel

def told (l : EpisodeLevel) (e : Event) : Props :=
  OrderedMap.ofPairs [("startTime", .timestamp e.millis), ("endTime", l.endTime e.millis),
    (initiatorTag, e.toValue)]

theorem propertiesOf_told (l : EpisodeLevel) (e : Event) (number : UInt64) :
    (Level.episode l).propertiesOf (.episode e.millis number) (l.told e) = l.told e := by
  have hinitiator : (l.told e).find? initiatorTag = some e.toValue := rfl
  simp only [Level.propertiesOf, hinitiator]
  rfl

end EpisodeLevel

theorem EpisodeController.capture_opening (c : EpisodeController) (e : Event) :
    Setting.capture (c.opening e) = c.level.told e := rfl

def Running.entry (id : ControllerId) (t : UInt32 × Running) : Key × Handle :=
  (t.2.key, .leaf id t.1 t.2.generation)

def Running.offered (e : Event) (t : UInt32 × Running) : UInt32 × Running :=
  (t.1, { t.2 with agents := t.2.agents.map fun a => a.evaluate e })

namespace Setting

variable {env : Setting} {l : EpisodeLevel} {e : Event} {course : List Event}
  {t : UInt32 × Running} {ts done rest : List (UInt32 × Running)} {partitions : Table Running}
  {b : Books}

/-- An instance in the partition of an episode that has seen some events, apart from how its stop
will end. -/
def recounting (env : Setting) (l : EpisodeLevel) (t : UInt32 × Running) (course : List Event)
    (s : Statement) : Agent :=
  { request := env.startRequest [⟨.episode l, t.2.key, t.2.properties⟩] t.1 false s
    view := { rows := course.filter s.matches } }

theorem evaluate_recounting (s : Statement) :
    (env.recounting l t course s).evaluate e = env.recounting l t (course ++ [e]) s := by
  have haccepts : (env.recounting l t course s).accepts e = s.matches e := by
    have haddendum : (env.recounting l t course s).addendum = OrderedMap.empty := rfl
    have hnone (f : HeldFilter) : Addendum.constraintsFor OrderedMap.empty f = [] := rfl
    simp only [Agent.accepts, haddendum, Addendum.accepts, hnone, List.all_nil, Bool.and_true]
    rfl
  rw [Agent.evaluate, haccepts]
  split
  · next h => simp [recounting, View.process, List.filter_append, h]
  · next h => simp [recounting, List.filter_append, h]

structure Follows (env : Setting) (l : EpisodeLevel) (course : List Event)
    (t : UInt32 × Running) : Prop where
  begun : ∃ e ∈ course.head?, (∃ number, t.2.key = .episode e.millis number) ∧
    t.2.properties = l.told e
  agents : t.2.agents.map Agent.plain = env.statements.map (env.recounting l t course)

theorem Follows.offered (h : env.Follows l course t) (e : Event) :
    env.Follows l (course ++ [e]) (Running.offered e t) := by
  obtain ⟨first, hfirst, htold⟩ := h.begun
  refine ⟨⟨first, ?_, htold⟩, ?_⟩
  · rw [List.head?_append, hfirst]
    rfl
  · rw [Running.offered, Agent.map_plain_evaluate, h.agents, List.map_map]
    exact List.map_congr_left fun s _ => evaluate_recounting s

/-- The live partitions in the order in which they started, with the identifiers in use. No stop
will fail. -/
structure Tallies (env : Setting) (ts : List (UInt32 × Running)) (s : Table Running × Books) :
    Prop where
  entries : s.1.entries.Perm ts
  ids : s.2.ids.ids.Perm (ts.map Prod.fst)
  tame : ∀ t ∈ ts, ∀ a ∈ t.2.agents, a.Tame env.runtime

theorem Tallies.stop (id : ControllerId) (x : Key × Handle) (xs : List (Key × Handle)) :
    Triple (fun s => ∃ ts, x :: xs = ts.map (Running.entry id) ∧ env.Tallies ts s)
      (env.endChild none [] id x.2)
      (fun _ s => ∃ ts, xs = ts.map (Running.entry id) ∧ env.Tallies ts s)
      fun _ _ => False := by
  rintro ⟨partitions, b⟩ ⟨ts, heq, h⟩
  obtain ⟨⟨p, r⟩, ts, rfl, rfl, rfl⟩ := List.map_eq_cons_iff.1 heq.symm
  have hmem : (p, r) ∈ partitions.entries := h.entries.mem_iff.2 (List.mem_cons_self ..)
  obtain ⟨htame, hrest⟩ := List.forall_mem_cons.1 h.tame
  let a : Child [] := r
  have hclosed : (env.closeChild none (p, a) b).1 = .ok () := stopAgents_tame htame
  let stopped := (env.stopAgents none false r.agents b).2
  have hnotes : b.Notes stopped := Books.notes_stopAgents
  have hids : (env.closeChild none (p, a) b).2.ids = (b.ids.remove p).2 := by
    have hreleased : (env.closeChild none (p, a) b).2.ids = (stopped.ids.remove p).2 := rfl
    rw [hreleased, hnotes.ids]
  have hlive : env.endChild none [] id (.leaf id p r.generation) (partitions, b) =
      ((env.closeChild none (p, a) b).1,
        (partitions.erase p, (env.closeChild none (p, a) b).2)) := endChild_live hmem
  refine Ends.congr ?_ hlive.symm
  rw [hclosed]
  refine ⟨ts, rfl, ?_, ?_, hrest⟩
  · have hperm := Table.perm_of_get? (Table.get?_eq_some.2 hmem)
    exact (hperm.symm.trans h.entries).cons_inv
  · have hp : p ∈ b.ids.ids := h.ids.mem_iff.2 (List.mem_cons_self ..)
    have hperm := (PartitionIds.remove_perm hp).symm.trans h.ids
    rw [hids]
    exact hperm.cons_inv

theorem Tallies.start (hunfailing : env.runtime.Unfailing) (hlimit : env.limit = none)
    {c : EpisodeController} {owner : Controller} (howner : owner.level = .episode c.level)
    (h : env.Tallies ts (partitions, b)) (hroom : ts.length < UInt32.size) :
    Ends (fun handle s => ∃ t,
        Running.entry owner.id t = (.episode e.millis c.nextNumber, handle) ∧
        env.Follows c.level [e] t ∧ env.Tallies (ts ++ [t]) s) (fun _ _ => False)
      (env.startPartition owner [] (c.opening e) (partitions, b)) := by
  have hcount : b.ids.count < UInt32.size := by
    rw [← PartitionIds.length_ids, h.ids.length_eq, List.length_map]
    exact hroom
  let p := b.ids.allocate.1
  have hclaim : env.claim (c.opening e).assigned b =
      (.ok p, { b with ids := b.ids.allocate.2 }) := if_pos hcount
  obtain ⟨agents, generation, b', hresult, hids, htame, hplain⟩ :=
    startPartition_unfailing hunfailing hlimit owner [] partitions rfl rfl hclaim
  have hallocated : b'.ids.ids.Perm (p :: b.ids.ids) := by
    rw [hids]
    exact PartitionIds.allocate_perm hcount
  -- the identifier was free, so the new partition takes the place of none
  have hnew : p ∉ partitions.keys := by
    have hnodup := hallocated.nodup_iff.1 b'.ids.nodup_ids
    refine fun hmem => (List.nodup_cons.1 hnodup).1 (h.ids.mem_iff.2 ?_)
    exact (h.entries.map Prod.fst).mem_iff.1 hmem
  let t : UInt32 × Running :=
    (p, ⟨generation, (c.opening e).key, capture (c.opening e), agents⟩)
  rw [hresult]
  refine ⟨t, rfl, ⟨⟨e, rfl, ⟨_, rfl⟩, c.capture_opening e⟩, ?_⟩, ?_, ?_, ?_⟩
  · rw [howner] at hplain
    refine hplain.trans (List.map_congr_left fun s _ => ?_)
    have hblank : (env.recounting c.level t [] s).evaluate e = env.recounting c.level t [e] s :=
      evaluate_recounting s
    exact hblank
  · refine (Table.insert_perm_of_new hnew).trans ?_
    exact (h.entries.cons t).trans (List.perm_append_singleton _ _).symm
  · rw [List.map_append]
    exact (hallocated.trans (h.ids.cons p)).trans (List.perm_append_singleton _ _).symm
  · exact List.forall_mem_append.2 ⟨h.tame, List.forall_mem_singleton.2 htame⟩

theorem Tallies.offer {controller : Controller} :
    Triple (fun s => s.1.controller = controller ∧
        env.Tallies (done ++ t :: rest) (s.1.children, s.2))
      (offerPartition e (Running.entry controller.id t).2)
      (fun _ s => s.1.controller = controller ∧
        env.Tallies (done ++ [Running.offered e t] ++ rest) (s.1.children, s.2))
      fun _ _ => False := by
  rintro ⟨⟨_, partitions⟩, b⟩ ⟨rfl, h⟩
  let partitions : Table Running := partitions
  obtain ⟨p, r⟩ := t
  let r' : Running := { r with agents := r.agents.map fun a => a.evaluate e }
  have hentries : partitions.entries.Perm ((p, r) :: (done ++ rest)) :=
    h.entries.trans List.perm_middle
  have hmem : (p, r) ∈ partitions.entries := hentries.mem_iff.2 (List.mem_cons_self ..)
  have hothers : (partitions.erase p).entries.Perm (done ++ rest) :=
    ((Table.perm_of_get? (Table.get?_eq_some.2 hmem)).symm.trans hentries).cons_inv
  have hplaced : ((p, r') :: (done ++ rest)).Perm (done ++ [(p, r')] ++ rest) := by
    rw [List.append_assoc]
    exact List.perm_middle.symm
  have hnotes : b.Notes (offerAll e r.agents b).2 := Books.notes_offerAll
  refine Ends.congr ?_ (offerPartition_live hmem rfl).symm
  refine ⟨rfl, ?_, ?_, fun x hx => ?_⟩
  · exact (partitions.insert_perm p r').trans ((hothers.cons _).trans hplaced)
  · have hids := h.ids
    simp only [List.map_append, List.map_cons, List.map_nil, List.append_assoc] at hids ⊢
    rw [hnotes.ids]
    exact hids
  · rcases List.mem_cons.1 (hplaced.mem_iff.2 hx) with rfl | hx
    · have htame := h.tame (p, r) (List.mem_append_right _ (List.mem_cons_self ..))
      exact List.forall_mem_map.2 fun a ha => (htame a ha).evaluate e
    · exact h.tame x (List.perm_middle.mem_iff.2 (List.mem_cons_of_mem _ hx))

theorem Tallies.offers (done : List (UInt32 × Running)) {controller : Controller} :
    Triple (fun s => s.1.controller = controller ∧
        env.Tallies (done ++ ts ++ rest) (s.1.children, s.2))
      (forEach (offerPartition e) (ts.map fun t => (Running.entry controller.id t).2))
      (fun _ s => s.1.controller = controller ∧
        env.Tallies (done ++ ts.map (Running.offered e) ++ rest) (s.1.children, s.2))
      fun _ _ => False := by
  induction ts generalizing done with
  | nil => exact triple_pure fun _ hs => hs
  | cons t ts ih =>
      -- the partition joins those that have been offered the event
      have hrest := ih (done ++ [Running.offered e t])
      simp only [List.map_cons, List.append_assoc, List.cons_append, List.nil_append] at hrest ⊢
      refine Triple.bind Tallies.offer fun _ => ?_
      simp only [List.append_assoc, List.cons_append, List.nil_append]
      exact hrest

end Setting

theorem Scheme.route_episode_ends {σ : Type} {life : Lifecycle σ} {e : Event}
    {c : EpisodeController} {s : σ} {T : List Handle → Scheme × σ → Prop}
    {E : Error → Scheme × σ → Prop}
    (h : Ends (fun hs p => T hs (.episode p.1, p.2)) (fun e p => E e (.episode p.1, p.2))
      (EpisodeController.route life e (c, s))) :
    Ends T E (Scheme.route life e (.episode c, s)) :=
  lift_triple (t := .episode c) h _ rfl

namespace Setting

variable {env : Setting} {l : EpisodeLevel} {e : Event} {es more : List Event} {n : Nat}
  {id : ControllerId} {c : EpisodeController} {t : UInt32 × Running}
  {ts : List (UInt32 × Running)} {s s' : Table Running × Books} {p : EventPattern}

structure Attends (env : Setting) (l : EpisodeLevel) (id : ControllerId) (n : Nat)
    (ts : List (UInt32 × Running)) (c : EpisodeController) (s : Table Running × Books) :
    Prop where
  level : c.level = l
  children : c.children.entries = ts.map (Running.entry id)
  next : c.nextNumber.toNat = n
  sound : (Scheme.episode c).Sound
  tallies : env.Tallies ts s

theorem Attends.ended (h : env.Attends l id n ts c s) (hs' : env.Tallies [] s') :
    env.Attends l id n [] { c with children := OrderedMap.empty } s' :=
  ⟨h.level, rfl, h.next, fun _ hk => absurd hk List.not_mem_nil, hs'⟩

theorem Attends.opened (h : env.Attends l id n ts c s) (hn : n < UInt32.size) {handle : Handle}
    (ht : Running.entry id t = (.episode e.millis c.nextNumber, handle))
    (hs' : env.Tallies (ts ++ [t]) s') :
    env.Attends l id (n + 1) (ts ++ [t]) (c.opened e handle) s' := by
  have hnew := EpisodeController.next_not_mem h.sound e.millis
  have hnext : (c.nextNumber + 1).toNat = n + 1 := by
    have hsize : UInt32.size + 1 < 2 ^ 64 := by decide
    rw [UInt64.toNat_add, h.next]
    exact Nat.mod_eq_of_lt (by simp only [UInt64.toNat_one]; omega)
  refine ⟨h.level, ?_, hnext, fun k hk => ?_, hs'⟩
  · have hentries : (c.opened e handle).children.entries =
        c.children.entries ++ [(.episode e.millis c.nextNumber, handle)] :=
      OrderedMap.entries_insert hnew
    rw [hentries, h.children, List.map_append, List.map_singleton, ht]
  · have hlt : c.nextNumber < c.nextNumber + 1 := by
      rw [UInt64.lt_iff_toNat_lt, hnext, h.next]
      exact Nat.lt_succ_self n
    rcases OrderedMap.mem_keys_insert.1 hk with rfl | hk
    · exact ⟨e.millis, c.nextNumber, rfl, hlt⟩
    · obtain ⟨start, number, rfl, hnumber⟩ := h.sound k hk
      exact ⟨start, number, rfl, UInt64.lt_trans hnumber hlt⟩

theorem Attends.starts_iff (h : env.Attends l id n ts c s)
    (hts : List.Forall₂ (env.Follows l) (l.lasting es e) ts) :
    l.Starts es e ↔ c.level.start.accepts e ∧ (c.level.overlapping ∨ c.children.isEmpty) := by
  have hempty : l.lasting es e = [] ↔ c.children.isEmpty = true := by
    rw [OrderedMap.isEmpty, h.children, List.isEmpty_iff, List.map_eq_nil_iff,
      ← List.length_eq_zero_iff, hts.length_eq, List.length_eq_zero_iff]
  rw [EpisodeLevel.Starts, hempty, h.level]

/-- The partitions that an event is to go to, before it goes there. One that starts with it is not
among them. -/
structure Heads (env : Setting) (l : EpisodeLevel) (es : List Event) (e : Event)
    (id : ControllerId) (targets : List Handle) (c : EpisodeController)
    (s : Table Running × Books) : Prop where
  split : ∃ kept begun, targets = (kept.map fun t => (Running.entry id t).2) ∧
    env.Attends l id (l.started (es ++ [e])) (kept ++ begun) c s ∧
    List.Forall₂ (env.Follows l) (l.lasting es e) kept ∧
    List.Forall₂ (env.Follows l) (if l.Starts es e then [[e]] else []) begun

theorem close_attends {owner : Controller} (hstart : l.start = .event p)
    (h : env.Attends l owner.id n ts c s)
    (hts : List.Forall₂ (env.Follows l) (l.episodes es) ts) :
    Ends (fun _ s => ∃ ts, env.Attends l owner.id n ts s.1 s.2 ∧
        List.Forall₂ (env.Follows l) (l.lasting es e) ts) (fun _ _ => False)
      (EpisodeController.close (env.lifecycle [] [] owner) e (c, s)) := by
  have hlevel := h.level
  refine EpisodeController.close_ends
    (J := fun xs s => ∃ ts, xs = ts.map (Running.entry owner.id) ∧ env.Tallies ts s)
    (hlevel ▸ hstart) ?_ (Tallies.stop owner.id) ⟨ts, h.children, h.tallies⟩ ?_
  · intro hkept
    refine ⟨ts, h, ?_⟩
    rw [EpisodeLevel.lasting, if_neg (hlevel ▸ hkept)]
    exact hts
  · rintro hended s' ⟨ts', hts', htallies⟩
    obtain rfl : ts' = [] := List.map_eq_nil_iff.1 hts'.symm
    refine ⟨[], h.ended htallies, ?_⟩
    rw [EpisodeLevel.lasting, if_pos (hlevel ▸ hended)]
    exact .nil

theorem receive_heads (hunfailing : env.runtime.Unfailing) (hlimit : env.limit = none)
    {owner : Controller} (howner : owner.level = .episode l)
    (hsize : l.started (es ++ [e]) < UInt32.size)
    (h : env.Attends l owner.id (l.started es) ts c s)
    (hts : List.Forall₂ (env.Follows l) (l.lasting es e) ts) :
    Ends (fun targets s => env.Heads l es e owner.id targets s.1 s.2) (fun _ _ => False)
      (EpisodeController.receive (env.lifecycle [] [] owner) e (c, s)) := by
  have htargets : c.children.values = ts.map fun t => (Running.entry owner.id t).2 := by
    rw [OrderedMap.values, h.children, List.map_map]
    rfl
  have hstarted : l.started (es ++ [e]) = l.started es + if l.Starts es e then 1 else 0 :=
    EpisodeLevel.started_concat
  refine EpisodeController.receive_ends ?_ ?_
  · intro hnone
    rw [← h.starts_iff hts] at hnone
    refine ⟨ts, [], htargets, ?_, hts, ?_⟩
    · rw [List.append_nil, hstarted, if_neg hnone]
      exact h
    · rw [if_neg hnone]
      exact .nil
  · intro hstarts
    rw [← h.starts_iff hts] at hstarts
    rw [if_pos hstarts] at hstarted
    have hn : l.started es < UInt32.size := by omega
    have hroom : ts.length < UInt32.size := by
      rw [← hts.length_eq]
      exact Nat.lt_of_le_of_lt
        (EpisodeLevel.length_lasting_le.trans EpisodeLevel.length_episodes_le) hn
    refine ⟨h.next ▸ hn, ?_⟩
    obtain ⟨partitions, b⟩ := s
    have hlevel := h.level
    subst hlevel
    refine (h.tallies.start (e := e) hunfailing hlimit howner hroom).imp ?_ fun _ _ h => h
    rintro handle s' ⟨t, ht, hfollows, htallies⟩
    refine ⟨ts, [t], htargets, ?_, hts, ?_⟩
    · rw [hstarted]
      exact h.opened hn ht htallies
    · rw [if_pos hstarts]
      exact .cons hfollows .nil

def Runs (env : Setting) (l : EpisodeLevel) (es : List Event) :
    (below : List Level) → Node (Children below) × Books → Prop
  | [], (node, b) => ∃ c ts, node.controller.scheme = .episode c ∧
      env.Attends l node.controller.id (l.started es) ts c (node.children, b) ∧
      List.Forall₂ (env.Follows l) (l.episodes es) ts
  | _ :: _, _ => False

theorem route_heads (hunfailing : env.runtime.Unfailing) (hlimit : env.limit = none)
    (hstart : l.start = .event p) (hsize : l.started (es ++ [e]) < UInt32.size)
    {s : Node (Children []) × Books} (h : env.Runs l es [] s) :
    Ends (fun targets s => ∃ c, s.1.controller.scheme = .episode c ∧
        env.Heads l es e s.1.controller.id targets c (s.1.children, s.2)) (fun _ _ => False)
      (env.drive [] [] (fun life => Controller.route life e) s) := by
  obtain ⟨⟨owner, children⟩, b⟩ := s
  obtain ⟨c, ts, hscheme, h, hts⟩ := h
  have howner : owner.level = .episode l := by
    rw [Controller.level, hscheme, ← h.level]
    rfl
  refine drive_ends (Controller.run_ends ?_)
  rw [hscheme]
  refine Scheme.route_episode_ends ?_
  have hclose : Triple (fun s => s = (c, (children, b)))
      (EpisodeController.close (env.lifecycle [] [] owner) e)
      (fun _ s => ∃ ts, env.Attends l owner.id (l.started es) ts s.1 s.2 ∧
        List.Forall₂ (env.Follows l) (l.lasting es e) ts) (fun _ _ => False) := by
    rintro _ rfl
    exact close_attends hstart h hts
  have hroute := hclose.bind fun _ => fun s hs => by
    obtain ⟨ts, h, hts⟩ := hs
    exact receive_heads hunfailing hlimit howner hsize h hts
  exact (hroute (c, (children, b)) rfl).imp (fun _ p hheads => ⟨p.1, rfl, hheads⟩) fun _ _ h => h

theorem offer_runs (hunfailing : env.runtime.Unfailing) (hlimit : env.limit = none)
    (hstart : l.start = .event p) (hsize : l.started (es ++ [e]) < UInt32.size)
    (below : List Level) :
    Triple (env.Runs l es below) (env.offer e below []) (fun _ => env.Runs l (es ++ [e]) below)
      fun _ _ => False := by
  cases below with
  | cons m below => exact fun _ h => h.elim
  | nil =>
      refine Triple.bind (fun s h => route_heads hunfailing hlimit hstart hsize h) fun targets => ?_
      rintro ⟨node, b⟩ ⟨c, hscheme, kept, begun, rfl, h, hkept, hbegun⟩
      refine (Tallies.offers [] (node, b) ⟨rfl, h.tallies⟩).imp ?_ fun _ _ h => h
      rintro - ⟨node', b'⟩ ⟨hcontroller, htallies⟩
      refine ⟨c, kept.map (Running.offered e) ++ begun, ?_, ?_, ?_⟩
      · exact (congrArg Controller.scheme hcontroller).trans hscheme
      · have hentries :
            (kept.map (Running.offered e) ++ begun).map (Running.entry node.controller.id) =
              (kept ++ begun).map (Running.entry node.controller.id) := by
          simp only [List.map_append, List.map_map]
          rfl
        have hid : node'.controller.id = node.controller.id := congrArg Controller.id hcontroller
        rw [hid]
        exact ⟨h.level, h.children.trans hentries.symm, h.next, h.sound, htallies⟩
      · rw [EpisodeLevel.episodes_concat]
        refine List.rel_append ?_ hbegun
        refine List.forall₂_map_left_iff.2 (List.forall₂_map_right_iff.2 ?_)
        exact hkept.imp fun _ _ hfollows => hfollows.offered e

end Setting

/-- A partition is that of an episode: it shows when the episode started and with what, and its one
instance, of the statement, has put out the events of the episode that the statement asks for. -/
structure Leaf.Recounts (s : Statement) (course : List Event) (ℓ : Leaf) : Prop where
  shown : ∃ e ∈ course.head?, ℓ.path.shown =
    [("startTime", .timestamp e.millis), ("endTime", .null), (initiatorTag, e.toValue)] ∧
      ∀ a ∈ ℓ.running.agents, a.request.builtin.get? "startTime" = some (.timestamp e.millis) ∧
        a.request.builtin.get? initiatorTag = some e.toValue
  rows : ∃ a, ℓ.running.agents = [a] ∧ a.statement = s ∧ a.rows = course.filter s.matches

namespace Setting

variable {env : Setting} {l : EpisodeLevel} {q : EventPattern} {s : Statement}
  {es course : List Event} {below : List Level} {node : Node (Children below)} {b : Books}
  {t : UInt32 × Running} {id : ControllerId} {name : String}

def leafOf (l : EpisodeLevel) (id : ControllerId) (t : UInt32 × Running) : Leaf :=
  ⟨[⟨.episode l, t.2.key, t.2.properties⟩], id, t.1, t.2⟩

theorem Runs.leaves (h : env.Runs l es below (node, b)) :
    ∃ ts, List.Forall₂ (env.Follows l) (l.episodes es) ts ∧
      (ts.map (leafOf l node.controller.id)).Perm (node.leaves below []) := by
  cases below with
  | cons m below => exact h.elim
  | nil =>
      obtain ⟨c, ts, hscheme, h, hts⟩ := h
      have hlevel : node.controller.level = .episode l := by
        rw [Controller.level, hscheme, ← h.level]
        rfl
      refine ⟨ts, hts, ?_⟩
      have hleaf : ∀ t, leafOf l node.controller.id t =
          ⟨[node.step t.2.key t.2.properties], node.controller.id, t.1, t.2⟩ := by
        intro t
        rw [leafOf, ← hlevel]
        rfl
      rw [funext hleaf]
      exact (h.tallies.entries.map _).symm

theorem Follows.recounts (h : env.Follows l course t)
    (hdescriptor : env.descriptor = Descriptor.ofLevels name [.episode l])
    (hstatements : env.statements = [s]) (hstop : l.stop = .event q) :
    (leafOf l id t).Recounts s course := by
  obtain ⟨e, he, ⟨number, hkey⟩, htold⟩ := h.begun
  have hend : l.endTime e.millis = .null := by rw [EpisodeLevel.endTime, hstop]
  have hproperties : (leafOf l id t).path.properties = [l.told e] := by
    simp only [leafOf, Path.properties, List.map_cons, List.map_nil, hkey, htold,
      l.propertiesOf_told e number]
  have hagents := h.agents
  rw [hstatements, List.map_cons, List.map_nil] at hagents
  obtain ⟨a, ha, hplain⟩ := List.map_eq_singleton_iff.1 hagents
  have hrequest : a.request = env.startRequest (leafOf l id t).path t.1 false s :=
    congrArg Agent.request hplain
  refine ⟨⟨e, he, ?_, fun a' ha' => ?_⟩, a, ha, ?_, ?_⟩
  · have hshown : (leafOf l id t).path.shown = (l.told e).entries := by
      simp only [leafOf, Path.shown, List.length_singleton, Nat.lt_irrefl, if_false, List.map_cons,
        List.map_nil, List.flatMap_singleton, hkey, htold, l.propertiesOf_told e number]
    rw [hshown, EpisodeLevel.told, hend]
    rfl
  · have ha' : a' ∈ t.2.agents := ha'
    rw [ha] at ha'
    obtain rfl := List.mem_singleton.1 ha'
    have hbuiltin : a'.request.builtin =
        (Descriptor.ofLevels name [.episode l]).builtin t.1 [l.told e] := by
      rw [hrequest, ← hproperties, ← hdescriptor]
      rfl
    rw [hbuiltin]
    exact ⟨rfl, rfl⟩
  · exact congrArg Agent.statement hplain
  · exact congrArg Agent.rows hplain

end Setting

namespace Context

variable {c : Context} {d : Declaration} {l : EpisodeLevel} {p q : EventPattern}
  {runtime : Runtime} {s : Statement} {es : List Event} {e : Event}

structure Episodic (d : Declaration) (l : EpisodeLevel) (runtime : Runtime) (s : Statement)
    (es : List Event) (c : Context) : Prop where
  declaration : c.declaration = d
  limit : c.options.limit = none
  statements : c.statements = [s]
  live : ∃ root, c.root = some root ∧
    (c.setting runtime).Runs l es c.declaration.inner (root, c.books)

namespace Episodic

theorem process (h : Episodic d l runtime s es c) (hunfailing : runtime.Unfailing)
    (hstart : l.start = .event p) (e : Event) (hsize : l.started (es ++ [e]) < UInt32.size) :
    ∃ c', process runtime e c = (.ok (), c') ∧ Episodic d l runtime s (es ++ [e]) c' := by
  obtain ⟨root, hroot, hruns⟩ := h.live
  have hoffer : Ends (fun _ => (c.setting runtime).Runs l (es ++ [e]) c.declaration.inner)
      (fun _ _ => False) ((c.setting runtime).offer e c.declaration.inner [] (root, c.books)) :=
    Setting.offer_runs hunfailing h.limit hstart hsize c.declaration.inner (root, c.books) hruns
  obtain ⟨_, ⟨root', books⟩, hx, hruns'⟩ := hoffer.ok
  refine ⟨{ c with root := some root', books }, ?_, h.declaration, h.limit, h.statements, root',
    rfl, hruns'⟩
  simp only [Context.process, onRoot, hroot, hx, Option.map_some, Option.getD_some]

theorem attach {options : Options} {metrics : Option Metrics} {recovery : Option (List Assignment)}
    (hlevels : d.levels = [.episode l]) (hstart : l.start = .event p)
    (hlimit : options.limit = none) :
    ∃ c, attach runtime s (Context.new d options metrics recovery) = (.ok (), c) ∧
      Episodic d l runtime s [] c := by
  obtain ⟨name, outer, inner, sound, distinct⟩ := d
  obtain ⟨rfl, rfl⟩ := List.cons.inj hlevels
  obtain ⟨levelName, start, stop, overlapping⟩ := l
  obtain rfl : start = .event p := hstart
  let d : Declaration := ⟨name, _, _, sound, distinct⟩
  let c : Context := Context.new d options metrics recovery
  let el : EpisodeLevel := ⟨levelName, .event p, stop, overlapping⟩
  let root : Node (Children []) :=
    ⟨{ Controller.create (.episode el) ⟨0⟩ 0 1 with scheme := .episode { level := el, now := 0 } },
      (Table.empty : Table Running)⟩
  let c' : Context := { c with
    statements := [s], recovery := none, root := some root
    books := { c.books with nextController := 1 } }
  refine ⟨c', (attach_ok_iff rfl).2 ⟨rfl, rfl, rfl⟩, rfl, hlimit, rfl, root, rfl,
    { level := el, now := 0 }, [], rfl, ⟨rfl, rfl, ?_, ?_, ?_⟩, ?_⟩
  · simp [EpisodeLevel.started, EpisodeLevel.episodes, EpisodeLevel.courses, EpisodeLevel.recent]
  · exact fun _ hk => absurd hk List.not_mem_nil
  · exact ⟨List.Perm.refl _, List.Perm.refl _, fun _ ht => absurd ht List.not_mem_nil⟩
  · simp [EpisodeLevel.episodes, EpisodeLevel.courses, EpisodeLevel.recent]

theorem forEach (h : Episodic d l runtime s es c) (hunfailing : runtime.Unfailing)
    (hstart : l.start = .event p) {more : List Event}
    (hsize : l.started (es ++ more) < UInt32.size) :
    ∃ c', Act.forEach (Context.process runtime) more c = (.ok (), c') ∧
      Episodic d l runtime s (es ++ more) c' := by
  induction more generalizing es c with
  | nil => exact ⟨c, rfl, by rwa [List.append_nil]⟩
  | cons e more ih =>
      have hsplit : es ++ e :: more = (es ++ [e]) ++ more := List.append_cons ..
      rw [hsplit] at hsize ⊢
      have hnext : l.started (es ++ [e]) < UInt32.size :=
        Nat.lt_of_le_of_lt EpisodeLevel.started_le_append hsize
      obtain ⟨c₁, hprocess, h₁⟩ := h.process hunfailing hstart e hnext
      obtain ⟨c', hrest, h'⟩ := ih h₁ hsize
      refine ⟨c', ?_, h'⟩
      rw [Act.forEach, bind_apply, hprocess]
      exact hrest

theorem leaves (h : Episodic d l runtime s es c) (hlevels : d.levels = [.episode l])
    (hstop : l.stop = .event q) :
    ∃ ℓs, ℓs.Perm c.leaves ∧ List.Forall₂ (Leaf.Recounts s) (l.episodes es) ℓs := by
  obtain ⟨root, hroot, hruns⟩ := h.live
  obtain ⟨ts, hts, hleaves⟩ := hruns.leaves
  have hdescriptor : (c.setting runtime).descriptor = Descriptor.ofLevels d.name [.episode l] := by
    rw [← hlevels, ← h.declaration]
    rfl
  refine ⟨_, leaves_of_root hroot ▸ hleaves, List.forall₂_map_right_iff.2 ?_⟩
  exact hts.imp fun _ _ hfollows => hfollows.recounts hdescriptor h.statements hstop

end Episodic

/-- Episodes between events: from the first statement on, every event is taken, and afterwards there
is one partition for each event that episodes start with, at or after the last event that ends them;
only for the first such event, if episodes do not overlap. It shows the time and the payload of that
event, and the statement has put out what it asks for of the events from that event on. -/
theorem episodes_between_events {options : Options} {metrics : Option Metrics}
    {recovery : Option (List Assignment)} (hlevels : d.levels = [.episode l])
    (hstart : l.start = .event p) (hstop : l.stop = .event q) (hlimit : options.limit = none)
    (hunfailing : runtime.Unfailing) (hsize : l.started es < UInt32.size) :
    ∃ c₀ c, attach runtime s (Context.new d options metrics recovery) = (.ok (), c₀) ∧
      forEach (process runtime) es c₀ = (.ok (), c) ∧
      ∃ ℓs, ℓs.Perm c.leaves ∧ List.Forall₂ (Leaf.Recounts s) (l.episodes es) ℓs := by
  obtain ⟨c₀, hattach, h₀⟩ : ∃ c₀, attach runtime s (Context.new d options metrics recovery) =
      (.ok (), c₀) ∧ Episodic d l runtime s [] c₀ := Episodic.attach hlevels hstart hlimit
  obtain ⟨c, hrun, h⟩ := h₀.forEach hunfailing hstart hsize
  exact ⟨c₀, c, hattach, hrun, h.leaves hlevels hstop⟩

def rounds : EpisodeLevel :=
  { name := "round"
    start := .event { eventType := "Mark" }
    stop := .event { eventType := "Mark", constraints := [.equal "final" (.int 1)] }
    overlapping := true }

def marks : Declaration :=
  { name := "marks", outer := .episode rounds, inner := [], sound := by decide
    distinct := by decide }

def mark (final : Int64) : Event :=
  { type := "Mark", data := OrderedMap.ofPairs [("final", .int final)] }

theorem episodes_between_events_marks :
    ∃ c₀ c, attach .collecting seen (Context.new marks) = (.ok (), c₀) ∧
      forEach (process .collecting) [mark 0, page, mark 1, page, mark 0] c₀ = (.ok (), c) ∧
      ∃ ℓs, ℓs.Perm c.leaves ∧
        List.Forall₂ (Leaf.Recounts seen) [[mark 1, page, mark 0], [mark 0]] ℓs := by
  have hepisodes : rounds.episodes [mark 0, page, mark 1, page, mark 0] =
      [[mark 1, page, mark 0], [mark 0]] := by decide +kernel
  have hsize : rounds.started [mark 0, page, mark 1, page, mark 0] < UInt32.size := by
    decide +kernel
  rw [← hepisodes]
  exact episodes_between_events rfl rfl rfl rfl Runtime.unfailing_collecting hsize

end Context

end EventContexts
