import EventContexts.Proofs.Tending

namespace EventContexts.KeyedController

open Act

variable {σ : Type} {life : Lifecycle σ} {l : Level} {e : Event}

theorem start_triple {c : KeyedController} {values : List Value} {trigger : Option Event}
    {recovered : Option Assignment} {I I' : Brood → σ → Prop}
    (hkey : Key.keyed values ∉ c.children.keys)
    (hstart : ∀ r : Request, r.key = .keyed values → r.trigger = trigger →
      r.recovered = recovered.map Assignment.children →
      Triple (I c.children) (life.start r)
        (fun h => I' (c.children.insert (.keyed values) h)) (fun _ => I c.children)) :
    Triple (fun p => p.1 = c ∧ Tended l I (.keyed p.1) p.2)
      (start life (.keyed values) trigger recovered)
      (fun _ p => Tended l I' (.keyed p.1) p.2) (fun _ p => Tended l I (.keyed p.1) p.2) := by
  apply triple_get_bind
  rintro ⟨c', s⟩ ⟨rfl, ht⟩
  have hr := hstart
    (Request.recovering { path := c'.nextPath, key := .keyed values, trigger
                          properties := (Level.keyed c'.level).propertiesOf (.keyed values) .empty }
      recovered) (by simp) (by simp) (Request.recovered_recovering rfl _)
  refine (Lifecycle.start_triple (c := c') (by simpa using hr)).imp ?_ ?_ ?_
  · rintro _ rfl
    exact ⟨rfl, ht.holds⟩
  · rintro _ ⟨c'', t⟩ ⟨h, rfl, hI⟩
    refine ⟨ht.level, ?_, by rwa [Request.key_recovering] at hI⟩
    intro k hk
    rcases OrderedMap.mem_keys_insert.1 hk with rfl | hk
    · exact ⟨values, rfl⟩
    · exact ht.sound k hk
  · rintro _ ⟨c'', t⟩ ⟨rfl, hI⟩
    exact ⟨ht.level, ht.sound, hI⟩

theorem keyFor?_eq_some {l : KeyedLevel} {key : Key} (h : l.keyFor? e = some key) :
    ∃ values, key = .keyed values := by
  obtain ⟨i, -, rfl⟩ := Option.map_eq_some_iff.1 h
  exact ⟨_, rfl⟩

theorem route_triple {J : Option Key → Brood → σ → Prop} (hdel : life.Delivers l e J) :
    Triple (fun p => Tended l (J none) (.keyed p.1) p.2) (route life e)
      (fun targets p => Routed l e J targets (.keyed p.1) p.2)
      (fun _ p => Tended l (J none) (.keyed p.1) p.2) := by
  apply triple_get_bind
  rintro ⟨c, s⟩ ht
  have hl : l = .keyed c.level := ht.level.symm
  have hroutes (k : Key) : l.Routes e k ↔ c.level.keyFor? e = some k := by rw [hl]; rfl
  cases hkey : c.level.keyFor? e with
  | none =>
      simp only [hkey]
      exact triple_return ⟨none, ht, targets_nil fun k hk => by simp [hroutes, hkey] at hk, by simp⟩
  | some key =>
      obtain ⟨values, rfl⟩ := keyFor?_eq_some hkey
      have hkeys (k : Key) : l.Routes e k ↔ k = .keyed values := by
        rw [hroutes, hkey, Option.some.injEq, eq_comm]
      cases hfind : c.children.find? (.keyed values) with
      | some handle =>
          simp only [hkey, hfind]
          exact triple_return
            ⟨none, ht, targets_singleton (OrderedMap.find?_eq_some.1 hfind) hkeys, by simp⟩
      | none =>
          simp only [hkey, hfind]
          have hnew : Key.keyed values ∉ c.children.keys := OrderedMap.find?_eq_none.1 hfind
          refine Triple.bind (Q := fun _ (p : KeyedController × σ) =>
            Tended l (J (some (.keyed values))) (.keyed p.1) p.2) ?_ fun _ => triple_pure ?_
          · refine (start_triple (c := c) (l := l) hnew fun r hrk hrt hrr => ?_).starting
              ⟨rfl, ht⟩
            have hcarries : r.Carries l e := ⟨hrt, (hkeys _).2 hrk, by rw [hrr]; rfl⟩
            exact hrk ▸ hdel r c.children hcarries (hrk ▸ hnew)
          · intro p hp
            refine ⟨some (.keyed values), hp, targets_nil fun k hk _ => ?_, ?_⟩
            · rw [(hkeys k).1 hk]
            · intro k hk
              exact (hkeys k).2 (Option.mem_some_iff.1 hk).symm

variable {R : Request → Prop} {I : Brood → σ → Prop} {a : Activation}

theorem keeps_recover (hlife : life.Honours R I) (hR : ∀ r, r.Answers l a → R r)
    {x : Assignment} (hx : x ∈ a.recovered) :
    Keeps (fun p => Tended l I (.keyed p.1) p.2) (recover life x) := by
  apply triple_get_bind
  rintro ⟨c, s⟩ ht
  have hdone : Triple (fun p => p = (c, s)) (pure () : Act (KeyedController × σ) Unit)
      (fun _ p => Tended l I (.keyed p.1) p.2) (fun _ p => Tended l I (.keyed p.1) p.2) := by
    exact triple_return ht
  cases hkey : x.key with
  | keyed values =>
      simp only
      split
      · exact hdone
      · next hc =>
          have hnew : Key.keyed values ∉ c.children.keys :=
            fun hmem => hc (OrderedMap.contains_iff.2 hmem)
          refine (start_triple (c := c) (l := l) hnew fun r hrk hrt hrr => ?_).starting
            ⟨rfl, ht⟩
          have hnonempty : a.recovered ≠ [] := List.ne_nil_of_mem hx
          have hanswers : r.Answers l a := by
            refine ⟨fun hor e' => ?_, fun hnil => absurd hnil hnonempty⟩
            have htrigger : a.trigger = none := hor.resolve_left hnonempty
            simp [hrt, htrigger]
          exact hrk ▸ hlife.start (hR r hanswers) (hrk ▸ hnew)
  | _ => simpa only [hkey] using hdone

theorem keeps_activate (hlife : life.Honours R I) (hR : ∀ r, r.Answers l a → R r) :
    Keeps (fun p => Tended l I (.keyed p.1) p.2) (activate life a) := by
  refine Triple.bind (triple_forEach fun x hx => keeps_recover hlife hR hx) fun _ => ?_
  cases htrigger : a.trigger with
  | none => exact triple_pure fun _ h => h
  | some e =>
      have hdel : life.Delivers l e fun _ => I :=
        hlife.delivers fun r hr => hR r (hr.answers htrigger)
      refine Triple.bind (route_triple hdel) fun _ => triple_pure ?_
      exact fun _ h => h.tended

end EventContexts.KeyedController
