import EventContexts.Proofs.Tending

namespace EventContexts.HashController

open Act

variable {σ : Type} {life : Lifecycle σ} {l : Level} {e : Event}

theorem start_triple {c : HashController} {bucket : Int64} {trigger : Option Event}
    {recovered : Option Assignment} {I I' : Brood → σ → Prop} (hb : c.maintains bucket = true)
    (hstart : ∀ r : Request, r.key = .hash bucket → r.trigger = trigger →
      r.recovered = recovered.map Assignment.children →
      Triple (I c.children) (life.start r)
        (fun h => I' (c.children.insert (.hash bucket) h)) (fun _ => I c.children)) :
    Triple (fun p => p.1 = c ∧ Tended l I (.hash p.1) p.2)
      (start life bucket trigger recovered)
      (fun _ p => Tended l I' (.hash p.1) p.2) (fun _ p => Tended l I (.hash p.1) p.2) := by
  rintro ⟨c', s⟩ ⟨rfl, ht⟩
  have hI : I c'.children s := ht.holds
  have hr := hstart
    (Request.recovering { path := pathOf bucket, key := .hash bucket, trigger } recovered)
    (by simp) (by simp) (Request.recovered_recovering rfl _)
  refine (Lifecycle.start_triple (c := c') (by simpa using hr) _ ⟨rfl, hI⟩).imp ?_ ?_
  · rintro _ ⟨c'', t⟩ ⟨h, rfl, hI⟩
    refine ⟨ht.level, ?_, by rwa [Request.key_recovering] at hI⟩
    intro k hk
    rcases OrderedMap.mem_keys_insert.1 hk with rfl | hk
    · exact ⟨bucket, rfl, hb⟩
    · exact ht.sound k hk
  · rintro _ ⟨c'', t⟩ ⟨rfl, hI⟩
    exact ⟨ht.level, ht.sound, hI⟩

theorem route_triple {J : Option Key → Brood → σ → Prop} (hdel : life.Delivers l e J) :
    Triple (fun p => Tended l (J none) (.hash p.1) p.2) (route life e)
      (fun targets p => Routed l e J targets (.hash p.1) p.2)
      (fun _ p => Tended l (J none) (.hash p.1) p.2) := by
  apply triple_get_bind
  rintro ⟨c, s⟩ ht
  have hl : l = .hash c.level := ht.level.symm
  have hroutes (k : Key) :
      l.Routes e k ↔ ∃ bucket, k = .hash bucket ∧ c.level.bucketOf? e = some bucket := by
    rw [hl]; rfl
  cases hbucket : c.level.bucketOf? e with
  | none =>
      simp only [hbucket]
      exact triple_return
        ⟨none, ht, targets_nil fun k hk => by simp [hroutes, hbucket] at hk, by simp⟩
  | some bucket =>
      have hkeys (k : Key) : l.Routes e k ↔ k = .hash bucket := by
        rw [hroutes, hbucket]
        constructor
        · rintro ⟨b, rfl, hb⟩
          rw [Option.some.inj hb]
        · rintro rfl
          exact ⟨bucket, rfl, rfl⟩
      simp only [hbucket]
      split
      · next hmaintains =>
          cases hfind : c.children.find? (.hash bucket) with
          | some handle =>
              exact triple_return
                ⟨none, ht, targets_singleton (OrderedMap.find?_eq_some.1 hfind) hkeys, by simp⟩
          | none =>
              have hnew : Key.hash bucket ∉ c.children.keys := OrderedMap.find?_eq_none.1 hfind
              refine Triple.bind (Q := fun _ (p : HashController × σ) =>
                Tended l (J (some (.hash bucket))) (.hash p.1) p.2) ?_ fun _ => triple_pure ?_
              · refine (start_triple (c := c) (l := l) hmaintains fun r hrk hrt hrr => ?_).starting
                  ⟨rfl, ht⟩
                have hcarries : r.Carries l e := ⟨hrt, (hkeys _).2 hrk, by rw [hrr]; rfl⟩
                exact hrk ▸ hdel r c.children hcarries (hrk ▸ hnew)
              · intro p hp
                refine ⟨some (.hash bucket), hp, targets_nil fun k hk _ => ?_, ?_⟩
                · rw [(hkeys k).1 hk]
                · intro k hk
                  exact (hkeys k).2 (Option.mem_some_iff.1 hk).symm
      · next hoff =>
          -- A bucket that is not maintained has no child.
          apply triple_pure
          rintro _ rfl
          refine ⟨none, ht, targets_nil fun k hk hmem => ?_, by simp⟩
          obtain ⟨b, hkb, hb⟩ := ht.sound k hmem
          rw [(hkeys k).1 hk] at hkb
          rw [← Key.hash.inj hkb] at hb
          exact absurd hb hoff

variable {R : Request → Prop} {I : Brood → σ → Prop} {a : Activation}

theorem keeps_recover (hlife : life.Honours R I) (hR : ∀ r, r.Answers l a → R r)
    {x : Assignment} (hx : x ∈ a.recovered) :
    Keeps (fun p => Tended l I (.hash p.1) p.2) (recover life x) := by
  apply triple_get_bind
  rintro ⟨c, s⟩ ht
  have hdone : Triple (fun p => p = (c, s)) (pure () : Act (HashController × σ) Unit)
      (fun _ p => Tended l I (.hash p.1) p.2) (fun _ p => Tended l I (.hash p.1) p.2) := by
    exact triple_return ht
  cases hkey : x.key with
  | hash bucket =>
      simp only
      split
      · next hc =>
          obtain ⟨hmaintains, hc⟩ := Bool.and_eq_true_iff.1 hc
          have hnew : Key.hash bucket ∉ c.children.keys := by
            rw [← OrderedMap.contains_iff]
            simpa using hc
          refine (start_triple (c := c) (l := l) hmaintains fun r hrk hrt hrr => ?_).starting
            ⟨rfl, ht⟩
          have hnonempty : a.recovered ≠ [] := List.ne_nil_of_mem hx
          have hanswers : r.Answers l a := by
            refine ⟨fun hor e' => ?_, fun hnil => absurd hnil hnonempty⟩
            have htrigger : a.trigger = none := hor.resolve_left hnonempty
            simp [hrt, htrigger]
          exact hrk ▸ hlife.start (hR r hanswers) (hrk ▸ hnew)
      · exact hdone
  | _ => simpa only [hkey] using hdone

theorem keeps_preallocate (hlife : life.Honours R I) (hR : ∀ r, r.Answers l a → R r)
    (count first : Nat) :
    Keeps (fun p => Tended l I (.hash p.1) p.2) (preallocate life a count first) := by
  induction count generalizing first with
  | zero => exact triple_pure fun _ h => h
  | succ count ih =>
      apply triple_get_bind
      rintro ⟨c, s⟩ ht
      have hl : l = .hash c.level := ht.level.symm
      simp only
      split
      · next hc =>
          obtain ⟨hmaintains, hc⟩ := Bool.and_eq_true_iff.1 hc
          have hnew : Key.hash (Int64.ofNat first) ∉ c.children.keys := by
            rw [← OrderedMap.contains_iff]
            simpa using hc
          refine Triple.bind ((start_triple (c := c) (l := l) hmaintains
            fun r hrk hrt hrr => ?_).starting ⟨rfl, ht⟩) fun _ => ih (first + 1)
          have hanswers : r.Answers l a := by
            refine ⟨fun _ e => ?_, fun hnil => by rw [hrr, hnil]; rfl⟩
            rw [hrt, Option.filter_eq_some_iff, hrk, hl, decide_eq_true_iff]
            refine and_congr_right fun _ => ?_
            constructor
            · exact fun h => ⟨_, rfl, h⟩
            · rintro ⟨b, hb, h⟩
              rw [h, Key.hash.inj hb]
          exact hrk ▸ hlife.start (hR r hanswers) (hrk ▸ hnew)
      · exact (ih (first + 1)).starting ht

theorem keeps_preallocateAll (hlife : life.Honours R I) (hR : ∀ r, r.Answers l a → R r) :
    Keeps (fun p => Tended l I (.hash p.1) p.2) (preallocateAll life a) := by
  apply triple_get_bind
  rintro ⟨c, s⟩ ht
  exact (keeps_preallocate hlife hR _ _).starting ht

theorem keeps_recoverAll (hlife : life.Honours R I) (hR : ∀ r, r.Answers l a → R r) :
    Keeps (fun p => Tended l I (.hash p.1) p.2) (recoverAll life a) := by
  refine Triple.bind (triple_forEach fun x hx => keeps_recover hlife hR hx) fun _ => ?_
  cases htrigger : a.trigger with
  | none => exact triple_pure fun _ h => h
  | some e =>
      have hdel : life.Delivers l e fun _ => I :=
        hlife.delivers fun r hr => hR r (hr.answers htrigger)
      refine Triple.bind (route_triple hdel) fun _ => triple_pure ?_
      exact fun _ h => h.tended

theorem keeps_activate (hlife : life.Honours R I) (hR : ∀ r, r.Answers l a → R r) :
    Keeps (fun p => Tended l I (.hash p.1) p.2) (activate life a) := by
  apply triple_get_bind
  rintro ⟨c, s⟩ ht
  simp only
  split
  · exact (keeps_preallocateAll hlife hR).starting ht
  · exact (keeps_recoverAll hlife hR).starting ht

structure Narrowing (l : Level) (I : Brood → σ → Prop) (xs : List (Key × Handle))
    (p : HashController × σ) : Prop where
  level : .hash p.1.level = l
  ending : ∀ x ∈ xs, x ∈ p.1.children.entries
  distinct : (xs.map Prod.fst).Nodup
  sound : ∀ k ∈ p.1.children.keys, ∃ bucket, k = .hash bucket ∧
    (k ∉ xs.map Prod.fst → p.1.maintains bucket = true)
  holds : I p.1.children p.2

theorem Narrowing.tended {p : HashController × σ} (h : Narrowing l I [] p) :
    Tended l I (.hash p.1) p.2 := by
  refine ⟨h.level, fun k hk => ?_, h.holds⟩
  obtain ⟨bucket, rfl, hm⟩ := h.sound k hk
  exact ⟨bucket, rfl, hm (by simp)⟩

theorem narrowing_outside {c : HashController} {s : σ} (hl : .hash c.level = l)
    (hkeys : ∀ k ∈ c.children.keys, ∃ bucket, k = .hash bucket) (hI : I c.children s) :
    Narrowing l I c.outside (c, s) := by
  refine ⟨hl, fun x hx => (List.mem_filter.1 hx).1, ?_, fun k hk => ?_, hI⟩
  · exact c.children.nodup.sublist (List.filter_sublist.map Prod.fst)
  · obtain ⟨bucket, rfl⟩ := hkeys k hk
    obtain ⟨h, hmem⟩ := OrderedMap.mem_keys.1 hk
    refine ⟨bucket, rfl, fun hnot => ?_⟩
    -- a key that is not to be ended is maintained, since all others are in the list
    by_contra hoff
    exact hnot (List.mem_map.2 ⟨_, List.mem_filter.2 ⟨hmem, by simpa using hoff⟩, rfl⟩)

theorem endChild_triple (hlife : life.Honours R I) (x : Key × Handle)
    (rest : List (Key × Handle)) :
    Triple (Narrowing l I (x :: rest)) (endChild life x) (fun _ => Narrowing l I rest)
      (fun _ => Narrowing l I rest) := by
  rintro ⟨c, s⟩ h
  have hrest : (rest.map Prod.fst).Nodup := (List.nodup_cons.1 h.distinct).2
  have hdone (t : σ) (hI : I (c.children.erase x.1) t) :
      Narrowing l I rest ({ c with children := c.children.erase x.1 }, t) := by
    refine ⟨h.level, fun y hy => ?_, hrest, fun k hk => ?_, hI⟩
    · exact OrderedMap.mem_erase_of_tail h.distinct hy (h.ending y (List.mem_cons_of_mem _ hy))
    · obtain ⟨hk, hne⟩ := OrderedMap.mem_keys_erase.1 hk
      obtain ⟨bucket, rfl, hm⟩ := h.sound k hk
      refine ⟨bucket, rfl, fun hnot => hm ?_⟩
      rw [List.map_cons, List.mem_cons, not_or]
      exact ⟨hne, hnot⟩
  have hstop := hlife.stop_triple (c := c)
    (f := fun c => { c with children := c.children.erase x.1 }) (h.ending x (List.mem_cons_self ..))
  refine (hstop (c, s) ⟨rfl, h.holds⟩).imp ?_ ?_
  · rintro _ ⟨c', t⟩ ⟨rfl, hI⟩
    exact hdone t hI
  · rintro _ ⟨c', t⟩ ⟨rfl, hI⟩
    exact hdone t hI

theorem keeps_restrict (hlife : life.Honours R I) (hR : ∀ r : Request, r.Plain → R r)
    (ranges : List BucketRange) :
    Keeps (fun p => Tended l I (.hash p.1) p.2) (restrict life ranges) := by
  refine Triple.bind (Q := fun _ (p : HashController × σ) => .hash p.1.level = l ∧
    (∀ k ∈ p.1.children.keys, ∃ bucket, k = .hash bucket) ∧ I p.1.children p.2) ?_ fun _ => ?_
  · refine Triple.first fun s => triple_modify fun c ht => ⟨ht.level, fun k hk => ?_, ht.holds⟩
    obtain ⟨bucket, rfl, -⟩ := ht.sound k hk
    exact ⟨bucket, rfl⟩
  · apply triple_get_bind
    rintro ⟨c, s⟩ ⟨hl, hkeys, hI⟩
    have hend := triple_forAll c.outside (endChild_triple (l := l) hlife)
    refine Triple.bind (hend.starting (narrowing_outside hl hkeys hI)).attempt fun ended => ?_
    have htended : ∀ p, Ends (fun _ => Narrowing l I []) (fun _ => Narrowing l I []) (ended, p) →
        Tended l I (.hash p.1) p.2 := fun p h => h.state.tended
    have hgrow : Keeps (fun p => Tended l I (.hash p.1) p.2) (preallocateAll life {}) :=
      keeps_preallocateAll hlife fun r hr => hR r (hr.plain rfl rfl)
    have htell : Keeps (fun p : HashController × σ => Tended l I (.hash p.1) p.2)
        (Act.ofExcept ended) := triple_ofExcept (fun _ _ _ h => h) fun _ _ _ h => h
    simp only
    split
    · exact Triple.bind (hgrow.imp htended (fun _ _ h => h) fun _ _ h => h) fun _ => htell
    · exact htell.imp htended (fun _ _ h => h) fun _ _ h => h

end EventContexts.HashController
