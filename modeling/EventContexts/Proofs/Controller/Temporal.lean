import EventContexts.Proofs.Tending

namespace EventContexts.TemporalController

open Act

variable {σ : Type} {life : Lifecycle σ} {l : Level} {e : Event}
  {R : Request → Prop} {I : Brood → σ → Prop} {a : Activation}

theorem erase_singleton {k : Key} {h : Handle} :
    (OrderedMap.ofPairs [(k, h)] : Brood).erase k = OrderedMap.empty := by
  simp [OrderedMap.erase, OrderedMap.filter, OrderedMap.empty]

theorem children_none {c : TemporalController} (h : c.child = none) :
    (Scheme.temporal c).children = OrderedMap.empty := by
  simp [Scheme.children, h]

theorem children_some {c : TemporalController} {k : Key} {h : Handle} (hc : c.child = some (k, h)) :
    (Scheme.temporal c).children = OrderedMap.ofPairs [(k, h)] := by
  simp [Scheme.children, hc]

theorem tended_none {c : TemporalController} {s : σ} (hl : .temporal c.level = l)
    (hc : c.child = none) (hI : I OrderedMap.empty s) : Tended l I (.temporal c) s := by
  refine ⟨hl, ?_, by rw [children_none hc]; exact hI⟩
  intro k hk
  rw [children_none hc] at hk
  simp at hk

theorem tended_some {c : TemporalController} {s : σ} {h : Handle} (hl : .temporal c.level = l)
    (hc : c.child = some (c.level.key, h)) (hI : I (OrderedMap.ofPairs [(c.level.key, h)]) s) :
    Tended l I (.temporal c) s := by
  refine ⟨hl, ?_, by rw [children_some hc]; exact hI⟩
  intro k hk
  rw [children_some hc] at hk
  simpa [OrderedMap.keys] using hk

theorem keeps_finish (hlife : life.Honours R I) :
    Keeps (fun p => Tended l I (.temporal p.1) p.2) (finish life) := by
  apply triple_get_bind
  rintro ⟨c, s⟩ ht
  cases hchild : c.child with
  | none =>
      have hI : I OrderedMap.empty s := children_none hchild ▸ ht.holds
      simp only [hchild]
      rintro _ rfl
      exact tended_none ht.level rfl hI
  | some p =>
      obtain ⟨k, h⟩ := p
      simp only [hchild]
      have hI : I (OrderedMap.ofPairs [(k, h)]) s := children_some hchild ▸ ht.holds
      have hmem : (k, h) ∈ (OrderedMap.ofPairs [(k, h)] : Brood).entries := by simp
      refine (hlife.stop_triple (c := c) hmem).starting ⟨rfl, hI⟩ |>.imp (fun _ h => h) ?_ ?_
      · rintro _ ⟨c', t⟩ ⟨rfl, hI⟩
        rw [erase_singleton] at hI
        exact tended_none ht.level rfl hI
      · rintro _ ⟨c', t⟩ ⟨rfl, hI⟩
        rw [erase_singleton] at hI
        exact tended_none ht.level rfl hI

theorem keeps_sync (hlife : life.Honours R I) {now : Int64} {trigger : Option Event}
    (hR : ∀ r : Request, r.trigger = trigger → r.recovered = none → R r) :
    Keeps (fun p => Tended l I (.temporal p.1) p.2) (sync life now trigger) := by
  apply triple_get_bind
  rintro ⟨c, s⟩ ht
  simp only
  split
  · exact (keeps_finish hlife).starting ht
  · split
    · next hopen =>
        have hnone : c.child = none := Option.isNone_iff_eq_none.1 hopen.2.1
        have hI : I OrderedMap.empty s := children_none hnone ▸ ht.holds
        refine Triple.bind (Q := fun _ p => p.1 = { c with recovered := none } ∧
          I OrderedMap.empty p.2) ?_ fun _ => ?_
        · rintro _ rfl
          exact ⟨rfl, hI⟩
        · let r : Request :=
            { path := 0, key := c.level.key, trigger, assigned := c.recovered
              properties := (Level.temporal c.level).propertiesOf c.level.key .empty }
          have hstart : Triple (I OrderedMap.empty) (life.start r)
              (fun h => I (OrderedMap.empty.insert r.key h)) (fun _ => I OrderedMap.empty) :=
            hlife.start (hR r rfl rfl) (by simp)
          refine (Lifecycle.start_triple hstart).imp (fun _ h => h) ?_ ?_
          · rintro _ ⟨c', t⟩ ⟨h, rfl, hI⟩
            exact tended_some ht.level rfl hI
          · rintro _ ⟨c', t⟩ ⟨rfl, hI⟩
            exact tended_none ht.level hnone hI
    · exact triple_return ht

theorem keeps_activate (hlife : life.Honours R I) (hl : ∃ cl, l = .temporal cl)
    (hR : ∀ r, r.Answers l a → R r) :
    Keeps (fun p => Tended l I (.temporal p.1) p.2) (activate life a) := by
  refine Triple.bind (Q := fun _ p => Tended l I (.temporal p.1) p.2) ?_ fun _ => ?_
  · exact Triple.first fun s => triple_modify fun c ht => ⟨ht.level, ht.sound, ht.holds⟩
  · refine keeps_sync hlife fun r hrt hrr => hR r ⟨fun _ e => ?_, fun _ => by rw [hrr]; rfl⟩
    obtain ⟨cl, rfl⟩ := hl
    rw [hrt]
    exact (and_iff_left trivial).symm

theorem targets_child {c : TemporalController} {cl : TemporalLevel} :
    Targets (.temporal cl) e none (Scheme.temporal c).children
      (c.child.map Prod.snd).toList := by
  cases hchild : c.child with
  | none =>
      rw [children_none hchild]
      exact targets_nil fun k _ hk => by simp at hk
  | some p =>
      obtain ⟨k, h⟩ := p
      rw [children_some hchild]
      refine ⟨[(k, h)], rfl, List.nodup_singleton _, fun p => ?_⟩
      rw [OrderedMap.entries_singleton]
      exact ⟨fun hp => ⟨hp, trivial, by simp⟩, fun hp => hp.1⟩

end EventContexts.TemporalController
