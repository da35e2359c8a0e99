import EventContexts.Controller
import EventContexts.Proofs.Entries
import EventContexts.Proofs.Triple

namespace EventContexts

open Act

variable {σ : Type}

/-- Whether a level sends an event to the child of a key. -/
def Level.Routes (e : Event) : Level → Key → Prop
  | .keyed l, key => l.keyFor? e = some key
  | .category l, key => ∃ i ∈ l.items, key = .category i.label ∧ l.admits i e = true
  | .hash l, key => ∃ bucket, key = .hash bucket ∧ l.bucketOf? e = some bucket
  | .episode _, _ => True
  | .temporal _, _ => True

namespace Request

def Plain (r : Request) : Prop := r.trigger = none ∧ r.recovered.getD [] = []

structure Carries (r : Request) (l : Level) (e : Event) : Prop where
  trigger : r.trigger = some e
  routes : l.Routes e r.key
  recovered : r.recovered.getD [] = []

/-- Hands an activation down: the trigger to the children it belongs to, and nothing to recreate
where there is nothing. Children are recreated and triggered by separate activations. -/
structure Answers (r : Request) (l : Level) (a : Activation) : Prop where
  trigger : a.recovered = [] ∨ a.trigger = none →
    ∀ e, r.trigger = some e ↔ a.trigger = some e ∧ l.Routes e r.key
  recovered : a.recovered = [] → r.recovered.getD [] = []

theorem Answers.plain {r : Request} {l : Level} {a : Activation} (h : r.Answers l a)
    (ht : a.trigger = none) (hr : a.recovered = []) : r.Plain := by
  refine ⟨Option.eq_none_iff_forall_ne_some.2 fun e he => ?_, h.recovered hr⟩
  have hsome : a.trigger = some e := ((h.trigger (.inl hr) e).1 he).1
  rw [ht] at hsome
  cases hsome

theorem Carries.answers {r : Request} {l : Level} {a : Activation} {e : Event}
    (h : r.Carries l e) (ha : a.trigger = some e) : r.Answers l a := by
  refine ⟨fun _ e' => ?_, fun _ => h.recovered⟩
  rw [h.trigger, ha]
  constructor
  · rintro ⟨⟩
    exact ⟨rfl, h.routes⟩
  · exact fun h' => h'.1

@[simp] theorem key_recovering (r : Request) (x : Option Assignment) :
    (r.recovering x).key = r.key := by
  cases x <;> rfl

@[simp] theorem trigger_recovering (r : Request) (x : Option Assignment) :
    (r.recovering x).trigger = r.trigger := by
  cases x <;> rfl

theorem recovered_recovering {r : Request} (h : r.recovered = none) (x : Option Assignment) :
    (r.recovering x).recovered = x.map Assignment.children := by
  cases x with
  | none => exact h
  | some x => rfl

end Request

namespace Lifecycle

/-- Starts and stops keep `I` about the children that are remembered, as long as no key is started
twice and only children that are remembered are stopped. -/
structure Honours (life : Lifecycle σ) (R : Request → Prop) (I : Brood → σ → Prop) : Prop where
  start : ∀ {r : Request} {children : Brood}, R r → r.key ∉ children.keys →
    Triple (I children) (life.start r) (fun h => I (children.insert r.key h))
      (fun _ => I children)
  stop : ∀ {children : Brood} {k : Key} {h : Handle}, (k, h) ∈ children.entries →
    Triple (I children) (life.stop h) (fun _ => I (children.erase k))
      (fun _ => I (children.erase k))

/-- Starts with an event turn `J none` into `J` of the key that they start. -/
def Delivers (life : Lifecycle σ) (l : Level) (e : Event) (J : Option Key → Brood → σ → Prop) :
    Prop :=
  ∀ (r : Request) (children : Brood), r.Carries l e → r.key ∉ children.keys →
    Triple (J none children) (life.start r) (fun h => J (some r.key) (children.insert r.key h))
      (fun _ => J none children)

theorem Honours.delivers {life : Lifecycle σ} {R : Request → Prop} {I : Brood → σ → Prop}
    {l : Level} {e : Event} (h : life.Honours R I) (hR : ∀ r, r.Carries l e → R r) :
    life.Delivers l e fun _ => I :=
  fun r _ hr hkey => h.start (hR r hr) hkey

variable {μ : Type} {life : Lifecycle σ} {c : μ} {children : Brood}

theorem start_triple {f : Handle → μ → μ} {r : Request} {I I' : Brood → σ → Prop}
    (h : Triple (I children) (life.start r) (fun h => I' (children.insert r.key h))
      (fun _ => I children)) :
    Triple (fun p => p.1 = c ∧ I children p.2)
      (second (life.start r) >>= fun h => first (modify (f h)))
      (fun _ p => ∃ h, p.1 = f h c ∧ I' (children.insert r.key h) p.2)
      (fun _ p => p.1 = c ∧ I children p.2) := by
  refine Triple.bind (Q := fun h p => p.1 = c ∧ I' (children.insert r.key h) p.2) ?_ fun x => ?_
  · refine Triple.second fun m s hs => ?_
    exact (h s hs.2).imp (fun x t ht => ⟨hs.1, ht⟩) fun _ t ht => ⟨hs.1, ht⟩
  · refine Triple.first fun s => triple_modify ?_
    rintro m ⟨rfl, hI⟩
    exact ⟨x, rfl, hI⟩

theorem Honours.stop_triple {R : Request → Prop} {I : Brood → σ → Prop} {f : μ → μ}
    {p : Key × Handle} (h : life.Honours R I) (hp : p ∈ children.entries) :
    Triple (fun q => q.1 = c ∧ I children q.2)
      (first (modify f) >>= fun _ => second (life.stop p.2))
      (fun _ q => q.1 = f c ∧ I (children.erase p.1) q.2)
      (fun _ q => q.1 = f c ∧ I (children.erase p.1) q.2) := by
  refine Triple.bind (Q := fun _ q => q.1 = f c ∧ I children q.2) ?_ fun _ => ?_
  · refine Triple.first fun s => triple_modify ?_
    rintro m ⟨rfl, hI⟩
    exact ⟨rfl, hI⟩
  · refine Triple.second fun m s hs => ?_
    exact (h.stop hp s hs.2).imp (fun _ t ht => ⟨hs.1, ht⟩) fun _ t ht => ⟨hs.1, ht⟩

end Lifecycle

/-- The targets are the children that the event belongs to, each once, without the one that
started with it. -/
def Targets (l : Level) (e : Event) (fresh : Option Key) (children : Brood)
    (targets : List Handle) : Prop :=
  ∃ chosen : List (Key × Handle), targets = chosen.map Prod.snd ∧ chosen.Nodup ∧
    ∀ p, p ∈ chosen ↔ p ∈ children.entries ∧ l.Routes e p.1 ∧ some p.1 ≠ fresh

theorem targets_nil {l : Level} {e : Event} {fresh : Option Key} {children : Brood}
    (h : ∀ k, l.Routes e k → k ∈ children.keys → some k = fresh) :
    Targets l e fresh children [] := by
  refine ⟨[], rfl, List.nodup_nil, fun p => ?_⟩
  simp only [List.not_mem_nil, false_iff, not_and, not_not]
  exact fun hp hr => h p.1 hr (List.mem_map_of_mem hp)

theorem targets_singleton {l : Level} {e : Event} {children : Brood} {k : Key} {h : Handle}
    (hmem : (k, h) ∈ children.entries) (hr : ∀ k', l.Routes e k' ↔ k' = k) :
    Targets l e none children [h] := by
  refine ⟨[(k, h)], rfl, List.nodup_singleton _, ?_⟩
  rintro ⟨k', h'⟩
  simp only [List.mem_singleton, Prod.mk.injEq, hr]
  constructor
  · rintro ⟨rfl, rfl⟩
    exact ⟨hmem, rfl, by simp⟩
  · rintro ⟨hkh, rfl, -⟩
    exact ⟨rfl, OrderedMap.eq_of_mem hkh hmem⟩

def Scheme.Sound : Scheme → Prop
  | .keyed c => ∀ k ∈ c.children.keys, ∃ values, k = .keyed values
  | .category c => ∀ k ∈ c.children.keys, ∃ i ∈ c.level.items, k = .category i.label
  | .hash c => ∀ k ∈ c.children.keys, ∃ bucket, k = .hash bucket ∧ c.maintains bucket = true
  | .episode c =>
      ∀ k ∈ c.children.keys, ∃ start number, k = .episode start number ∧ number < c.nextNumber
  | .temporal c => ∀ k ∈ (Scheme.temporal c).children.keys, k = c.level.key

structure Tended (l : Level) (I : Brood → σ → Prop) (s : Scheme) (t : σ) : Prop where
  level : s.level = l
  sound : s.Sound
  holds : I s.children t

theorem Tended.mono {l : Level} {I I' : Brood → σ → Prop} {s : Scheme} {t : σ}
    (h : Tended l I s t) (hI : I s.children t → I' s.children t) : Tended l I' s t :=
  ⟨h.level, h.sound, hI h.holds⟩

structure Routed (l : Level) (e : Event) (J : Option Key → Brood → σ → Prop)
    (targets : List Handle) (s : Scheme) (t : σ) : Prop where
  fresh : ∃ fresh, Tended l (J fresh) s t ∧ Targets l e fresh s.children targets ∧
    ∀ k ∈ fresh, l.Routes e k

theorem Routed.tended {l : Level} {e : Event} {I : Brood → σ → Prop} {targets : List Handle}
    {s : Scheme} {t : σ} (h : Routed l e (fun _ => I) targets s t) : Tended l I s t := by
  obtain ⟨fresh, ht, -⟩ := h.fresh
  exact ht

end EventContexts
