import EventContexts.Proofs.Tending

namespace EventContexts.EpisodeController

open Act

variable {σ : Type} {life : Lifecycle σ} {l : Level} {e : Event}

theorem lt_succ_of_nextPath? {c : EpisodeController} {path : UInt32}
    (h : c.nextPath? = .ok path) : c.nextNumber < c.nextNumber + 1 := by
  rw [nextPath?] at h
  split at h
  · next hlt =>
      rw [UInt64.lt_iff_toNat_lt, UInt64.toNat_add]
      have hsize : UInt32.size + 1 < 2 ^ 64 := by decide
      have hmod := Nat.mod_eq_of_lt (a := c.nextNumber.toNat + UInt64.toNat 1) (b := 2 ^ 64)
        (by simp only [UInt64.toNat_one]; omega)
      rw [hmod]
      simp
  · cases h

theorem next_not_mem {c : EpisodeController} (h : (Scheme.episode c).Sound) (start : Int64) :
    Key.episode start c.nextNumber ∉ c.children.keys := by
  intro hmem
  obtain ⟨start', number, heq, hlt⟩ := h _ hmem
  rw [(Key.episode.inj heq).2] at hlt
  exact UInt64.lt_irrefl _ hlt

theorem startEpisode_triple {c : EpisodeController} {start : Int64} {initiator : Option Event}
    {I I' : Brood → σ → Prop}
    (hstart : ∀ r : Request, r.key = .episode start c.nextNumber → r.trigger = initiator →
      r.recovered = none → r.key ∉ c.children.keys →
      Triple (I c.children) (life.start r)
        (fun h => I' (c.children.insert (.episode start c.nextNumber) h))
        (fun _ => I c.children)) :
    Triple (fun p => p.1 = c ∧ Tended l I (.episode p.1) p.2)
      (startEpisode life start initiator)
      (fun _ p => Tended l I' (.episode p.1) p.2 ∧
        .episode start c.nextNumber ∉ c.children.keys ∧
        ∃ h, p.1.children = c.children.insert (.episode start c.nextNumber) h)
      (fun _ p => Tended l I (.episode p.1) p.2) := by
  apply triple_get_bind
  rintro ⟨c', s⟩ ⟨rfl, ht⟩
  have hI : I c'.children s := ht.holds
  have hnew := next_not_mem ht.sound start
  refine Triple.bind (Q := fun path p => c'.nextPath? = .ok path ∧ p = (c', s)) ?_ fun path => ?_
  · refine triple_ofExcept (fun path p hpath hp => ⟨hpath, hp⟩) fun _ p _ hp => ?_
    exact hp ▸ ht
  · rintro _ ⟨hpath, rfl⟩
    have hlt := lt_succ_of_nextPath? hpath
    refine (Lifecycle.start_triple (c := c') (hstart _ rfl rfl rfl hnew) _ ⟨rfl, hI⟩).imp ?_ ?_
    · rintro _ ⟨c'', t⟩ ⟨h, rfl, hI'⟩
      refine ⟨⟨ht.level, fun k hk => ?_, hI'⟩, hnew, h, rfl⟩
      rcases OrderedMap.mem_keys_insert.1 hk with rfl | hk
      · exact ⟨start, c'.nextNumber, rfl, hlt⟩
      · obtain ⟨start', number, rfl, hnumber⟩ := ht.sound k hk
        exact ⟨start', number, rfl, UInt64.lt_trans hnumber hlt⟩
    · rintro _ ⟨c'', t⟩ ⟨rfl, hI'⟩
      exact ⟨ht.level, ht.sound, hI'⟩

variable {R : Request → Prop} {I : Brood → σ → Prop} {a : Activation}

theorem keeps_startEpisode (hlife : life.Honours R I) {start : Int64} {initiator : Option Event}
    (hR : ∀ r : Request, r.trigger = initiator → r.recovered = none → R r) :
    Keeps (fun p => Tended l I (.episode p.1) p.2) (startEpisode life start initiator) := by
  rintro ⟨c, s⟩ ht
  refine (startEpisode_triple (c := c) (l := l) (fun r hrk hrt hrr hnew => ?_) _ ⟨rfl, ht⟩).imp
    (fun _ _ h => h.1) fun _ _ h => h
  exact hrk ▸ hlife.start (hR r hrt hrr) hnew

theorem keeps_restartIfNow (hlife : life.Honours R I) (hR : ∀ r : Request, r.Plain → R r) :
    Keeps (fun p => Tended l I (.episode p.1) p.2) (restartIfNow life) := by
  apply triple_get_bind
  rintro ⟨c, s⟩ ht
  simp only
  split
  · exact (keeps_startEpisode hlife fun r hrt hrr => hR r ⟨hrt, by rw [hrr]; rfl⟩).starting ht
  · exact triple_return ht

structure Ending (l : Level) (I : Brood → σ → Prop) (xs : List (Key × Handle))
    (p : EpisodeController × σ) : Prop where
  tended : Tended l I (.episode p.1) p.2
  ending : ∀ x ∈ xs, x ∈ p.1.children.entries
  distinct : (xs.map Prod.fst).Nodup

theorem endEpisode_triple (hlife : life.Honours R I) (x : Key × Handle)
    (rest : List (Key × Handle)) :
    Triple (Ending l I (x :: rest)) (endEpisode life x) (fun _ => Ending l I rest)
      (fun _ => Ending l I rest) := by
  rintro ⟨c, s⟩ h
  have hrest : (rest.map Prod.fst).Nodup := (List.nodup_cons.1 h.distinct).2
  have hI : I c.children s := h.tended.holds
  have hdone (t : σ) (hI : I (c.children.erase x.1) t) :
      Ending l I rest ({ c with children := c.children.erase x.1 }, t) := by
    refine ⟨⟨h.tended.level, fun k hk => ?_, hI⟩, fun y hy => ?_, hrest⟩
    · exact h.tended.sound k (OrderedMap.mem_keys_erase.1 hk).1
    · exact OrderedMap.mem_erase_of_tail h.distinct hy (h.ending y (List.mem_cons_of_mem _ hy))
  have hstop := hlife.stop_triple (c := c)
    (f := fun c => { c with children := c.children.erase x.1 })
    (h.ending x (List.mem_cons_self ..))
  refine (hstop (c, s) ⟨rfl, hI⟩).imp ?_ ?_
  · rintro _ ⟨c', t⟩ ⟨rfl, hI⟩
    exact hdone t hI
  · rintro _ ⟨c', t⟩ ⟨rfl, hI⟩
    exact hdone t hI

theorem keeps_endEpisodes (hlife : life.Honours R I) {c : EpisodeController} {s : σ}
    {xs : List (Key × Handle)} (hxs : xs.Sublist c.children.entries)
    (ht : Tended l I (.episode c) s) :
    Triple (fun p => p = (c, s)) (Act.forAll (endEpisode life) xs)
      (fun _ p => Tended l I (.episode p.1) p.2) (fun _ p => Tended l I (.episode p.1) p.2) := by
  have hstart : Ending l I xs (c, s) :=
    ⟨ht, fun x hx => hxs.subset hx, c.children.nodup.sublist (hxs.map Prod.fst)⟩
  exact ((triple_forAll xs (endEpisode_triple hlife)).starting hstart).imp (fun _ h => h)
    (fun _ _ h => h.tended) fun _ _ h => h.tended

theorem keeps_activate (hlife : life.Honours R I) (hl : ∃ cl, l = .episode cl)
    (hR : ∀ r, r.Answers l a → R r) :
    Keeps (fun p => Tended l I (.episode p.1) p.2) (activate life a) := by
  have hstart {start : Int64} :
      Keeps (fun p => Tended l I (.episode p.1) p.2) (startEpisode life start a.trigger) := by
    refine keeps_startEpisode hlife fun r hrt hrr => hR r ⟨fun _ e => ?_, fun _ => by rw [hrr]; rfl⟩
    obtain ⟨cl, rfl⟩ := hl
    rw [hrt]
    exact (and_iff_left trivial).symm
  refine Triple.bind (Q := fun _ p => Tended l I (.episode p.1) p.2) ?_ fun _ => ?_
  · exact Triple.first fun s => triple_modify fun c ht => ⟨ht.level, ht.sound, ht.holds⟩
  · apply triple_get_bind
    rintro ⟨c, s⟩ ht
    cases hnow : c.level.start with
    | now =>
        simp only [hnow]
        exact hstart.starting ht
    | event pattern =>
        cases htrigger : a.trigger with
        | none =>
            simp only [hnow]
            exact triple_return ht
        | some e =>
            simp only [hnow]
            split
            · exact (htrigger ▸ hstart).starting ht
            · exact triple_return ht

theorem targets_values {cl : EpisodeLevel} {children : Brood} :
    Targets (.episode cl) e none children children.values := by
  refine ⟨children.entries, rfl, children.nodup.of_map _, fun p => ?_⟩
  exact ⟨fun hp => ⟨hp, trivial, by simp⟩, fun h => h.1⟩

theorem targets_values_insert {cl : EpisodeLevel} {children : Brood} {k : Key} {h : Handle}
    (hnew : k ∉ children.keys) :
    Targets (.episode cl) e (some k) (children.insert k h) children.values := by
  refine ⟨children.entries, rfl, children.nodup.of_map _, fun p => ?_⟩
  rw [OrderedMap.entries_insert hnew, List.mem_append, List.mem_singleton]
  constructor
  · intro hp
    refine ⟨.inl hp, trivial, fun heq => hnew ?_⟩
    exact Option.some.inj heq ▸ List.mem_map_of_mem hp
  · rintro ⟨hp | rfl, -, hne⟩
    · exact hp
    · exact absurd rfl hne

theorem receive_triple {J : Option Key → Brood → σ → Prop} (hdel : life.Delivers l e J) :
    Triple (fun p => Tended l (J none) (.episode p.1) p.2) (receive life e)
      (fun targets p => Routed l e J targets (.episode p.1) p.2)
      (fun _ p => Tended l (J none) (.episode p.1) p.2) := by
  apply triple_get_bind
  rintro ⟨c, s⟩ ht
  have hl : l = .episode c.level := ht.level.symm
  simp only
  split
  · let key := Key.episode e.millis c.nextNumber
    have hstart : Triple (fun p => p = (c, s)) (startEpisode life e.millis (some e))
        (fun _ p => Tended l (J (some key)) (.episode p.1) p.2 ∧ key ∉ c.children.keys ∧
          ∃ h, p.1.children = c.children.insert key h)
        (fun _ p => Tended l (J none) (.episode p.1) p.2) := by
      refine (startEpisode_triple (c := c) (l := l) fun r hrk hrt hrr hnew => ?_).starting ⟨rfl, ht⟩
      have hcarries : r.Carries l e := ⟨hrt, by rw [hl]; trivial, by rw [hrr]; rfl⟩
      have h := hdel r c.children hcarries hnew
      rw [hrk] at h
      exact h
    refine Triple.bind hstart fun _ => triple_pure ?_
    rintro ⟨c', t⟩ ⟨ht', hnew, h, hchildren⟩
    have hchildren : (Scheme.episode c').children = c.children.insert key h := hchildren
    refine ⟨some key, ht', ?_, fun k _ => by rw [hl]; trivial⟩
    rw [hl, hchildren]
    exact targets_values_insert hnew
  · refine triple_return ⟨none, ht, ?_, by simp⟩
    rw [hl]
    exact targets_values

theorem keeps_close (hlife : life.Honours R I) (hR : ∀ r : Request, r.Plain → R r) :
    Keeps (fun p => Tended l I (.episode p.1) p.2) (close life e) := by
  apply triple_get_bind
  rintro ⟨c, s⟩ ht
  simp only
  split
  · refine Triple.bind (keeps_endEpisodes hlife (List.Sublist.refl _) ht) fun _ => ?_
    exact keeps_restartIfNow hlife hR
  · exact triple_return ht

theorem route_triple {J : Option Key → Brood → σ → Prop} (hlife : life.Honours R (J none))
    (hR : ∀ r : Request, r.Plain → R r) (hdel : life.Delivers l e J) :
    Triple (fun p => Tended l (J none) (.episode p.1) p.2) (route life e)
      (fun targets p => Routed l e J targets (.episode p.1) p.2)
      (fun _ p => Tended l (J none) (.episode p.1) p.2) :=
  Triple.bind (keeps_close hlife hR) fun _ => receive_triple hdel

theorem keeps_tick (hlife : life.Honours R I) (hR : ∀ r : Request, r.Plain → R r) (now : Int64) :
    Keeps (fun p => Tended l I (.episode p.1) p.2) (tick life now) := by
  refine Triple.bind (Q := fun _ p => Tended l I (.episode p.1) p.2) ?_ fun _ => ?_
  · exact Triple.first fun s => triple_modify fun c ht => ⟨ht.level, ht.sound, ht.holds⟩
  · apply triple_get_bind
    rintro ⟨c, s⟩ ht
    cases hstop : c.level.stop with
    | event pattern =>
        simp only [hstop]
        exact triple_return ht
    | after duration =>
        simp only [hstop]
        refine Triple.bind (keeps_endEpisodes hlife List.filter_sublist ht) fun _ => ?_
        split
        · exact triple_pure fun _ h => h
        · exact keeps_restartIfNow hlife hR

section between

variable {c : EpisodeController} {s : σ} {J : List (Key × Handle) → σ → Prop}

def opening (c : EpisodeController) (e : Event) : Request :=
  let key := Key.episode e.millis c.nextNumber
  { path := c.nextNumber.toUInt32
    key
    properties :=
      ((Level.episode c.level).propertiesOf key OrderedMap.empty).insert initiatorTag e.toValue
    trigger := some e
    pattern := some (OrderedMap.ofPairs [(initiatorTag, e)]) }

def opened (c : EpisodeController) (e : Event) (h : Handle) : EpisodeController :=
  { c with
    nextNumber := c.nextNumber + 1
    children := c.children.insert (.episode e.millis c.nextNumber) h }

theorem startEpisode_ends {T : Unit → EpisodeController × σ → Prop}
    {E : Error → EpisodeController × σ → Prop} (hnumber : c.nextNumber.toNat < UInt32.size)
    (h : Ends (fun h t => T () (c.opened e h, t)) (fun why t => E why (c, t))
      (life.start (c.opening e) s)) :
    Ends T E (startEpisode life e.millis (some e) (c, s)) := by
  have hpath : c.nextPath? = .ok c.nextNumber.toUInt32 := if_pos hnumber
  rcases hx : life.start (c.opening e) s with ⟨why | handle, t⟩
  · rw [hx] at h
    have heq : startEpisode life e.millis (some e) (c, s) = (.error why, (c, t)) := by
      rw [opening] at hx
      simp only [startEpisode, Act.get, bind_apply, Act.ofExcept, hpath, Act.second,
        Option.map_some, hx]
    rw [heq]
    exact h
  · rw [hx] at h
    have heq : startEpisode life e.millis (some e) (c, s) = (.ok (), (c.opened e handle, t)) := by
      rw [opening] at hx
      simp only [startEpisode, Act.get, bind_apply, Act.ofExcept, hpath, Act.second,
        Option.map_some, hx]
      rfl
    rw [heq]
    exact h

theorem endEpisodes_ends
    (hstop : ∀ x rest, Triple (J (x :: rest)) (life.stop x.2) (fun _ => J rest) fun _ _ => False)
    (hJ : J c.children.entries s) :
    Ends (fun _ p => p.1 = { c with children := OrderedMap.empty } ∧ J [] p.2) (fun _ _ => False)
      (forAll (endEpisode life) c.children.entries (c, s)) := by
  let K (xs : List (Key × Handle)) (p : EpisodeController × σ) : Prop :=
    ∃ children : Brood, p.1 = { c with children } ∧ children.entries = xs ∧ J xs p.2
  have hend (x : Key × Handle) (rest : List (Key × Handle)) :
      Triple (K (x :: rest)) (endEpisode life x) (fun _ => K rest) fun _ _ => False := by
    rintro ⟨_, t⟩ ⟨children, rfl, hentries, hJ⟩
    obtain ⟨_, u, hstopped, hJ⟩ := (hstop x rest t hJ).ok
    have heq : endEpisode life x ({ c with children }, t) =
        (.ok (), ({ c with children := children.erase x.1 }, u)) := by
      simp only [endEpisode, bind_apply, Act.first, Act.modify, Act.second, hstopped]
    rw [heq]
    exact ⟨_, rfl, OrderedMap.entries_erase_head hentries, hJ⟩
  refine (triple_forAll_ok c.children.entries hend (c, s) ⟨c.children, rfl, rfl, hJ⟩).imp ?_
    fun _ _ h => h
  rintro _ ⟨_, t⟩ ⟨⟨entries, nodup⟩, rfl, hentries, hJ⟩
  obtain rfl : entries = [] := hentries
  exact ⟨rfl, hJ⟩

theorem close_ends {T : Unit → EpisodeController × σ → Prop} {pattern : EventPattern}
    (hstart : c.level.start = .event pattern) (hkept : ¬ c.level.stop.accepts e → T () (c, s))
    (hstop : ∀ x rest, Triple (J (x :: rest)) (life.stop x.2) (fun _ => J rest) fun _ _ => False)
    (hJ : J c.children.entries s)
    (hended : c.level.stop.accepts e →
      ∀ t, J [] t → T () ({ c with children := OrderedMap.empty }, t)) :
    Ends T (fun _ _ => False) (close life e (c, s)) := by
  by_cases hends : c.level.stop.accepts e
  · obtain ⟨_, ⟨_, t⟩, hx, rfl, hJ⟩ := (endEpisodes_ends hstop hJ).ok
    have heq : close life e (c, s) = (.ok (), ({ c with children := OrderedMap.empty }, t)) := by
      simp [close, Act.get, bind_apply, hends, hx, restartIfNow, hstart, pure_apply]
    rw [heq]
    exact hended hends t hJ
  · have heq : close life e (c, s) = (.ok (), (c, s)) := by
      simp [close, Act.get, bind_apply, hends, pure_apply]
    rw [heq]
    exact hkept hends

theorem receive_ends {T : List Handle → EpisodeController × σ → Prop}
    {E : Error → EpisodeController × σ → Prop}
    (hnone : ¬ (c.level.start.accepts e ∧ (c.level.overlapping ∨ c.children.isEmpty)) →
      T c.children.values (c, s))
    (hstart : c.level.start.accepts e ∧ (c.level.overlapping ∨ c.children.isEmpty) →
      c.nextNumber.toNat < UInt32.size ∧
      Ends (fun h t => T c.children.values (c.opened e h, t)) (fun why t => E why (c, t))
        (life.start (c.opening e) s)) :
    Ends T E (receive life e (c, s)) := by
  by_cases hopen : c.level.start.accepts e ∧ (c.level.overlapping ∨ c.children.isEmpty)
  · obtain ⟨hnumber, hlife⟩ := hstart hopen
    have hepisode : Triple (fun p => p = (c, s)) (startEpisode life e.millis (some e))
        (fun _ => T c.children.values) E := by
      rintro _ rfl
      exact startEpisode_ends hnumber hlife
    have heq : receive life e (c, s) =
        ((startEpisode life e.millis (some e) >>= fun _ => pure c.children.values) :
          Act (EpisodeController × σ) (List Handle)) (c, s) := by
      simp only [receive, Act.get, bind_apply, if_pos hopen]
    rw [heq]
    exact hepisode.bind (fun _ => triple_pure fun _ h => h) (c, s) rfl
  · have heq : receive life e (c, s) = (.ok c.children.values, (c, s)) := by
      simp only [receive, Act.get, bind_apply, if_neg hopen]
      rfl
    rw [heq]
    exact hnone hopen

end between

end EventContexts.EpisodeController
