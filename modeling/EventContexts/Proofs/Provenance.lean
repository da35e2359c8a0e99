import EventContexts.Proofs.Bequests
import EventContexts.Proofs.Custody
import EventContexts.Proofs.Faults

namespace EventContexts

open Act

namespace Assignment

inductive Names (p : UInt32) : Assignment → Prop where
  | here {x : Assignment} (h : x.partition = some p) : Names p x
  | under {x y : Assignment} (hy : y ∈ x.children) (h : Names p y) : Names p x

def Within (X : UInt32 → Prop) (xs : List Assignment) : Prop := ∀ x ∈ xs, ∀ p, x.Names p → X p

variable {X : UInt32 → Prop} {xs : List Assignment} {x : Assignment} {p : UInt32}

theorem within_nil : Within X [] := fun _ hx => (List.not_mem_nil hx).elim

theorem Within.partition (h : Within X xs) (hx : x ∈ xs) : ∀ p ∈ x.partition, X p :=
  fun p hp => h x hx p (.here hp)

theorem Within.children (h : Within X xs) (hx : x ∈ xs) : Within X x.children :=
  fun _ hy p hp => h x hx p (.under hy hp)

end Assignment

namespace Scheme

variable {X : UInt32 → Prop} {s : Scheme} {h : Handle}

def Recalls (X : UInt32 → Prop) : Scheme → Prop
  | .temporal c => ∀ p ∈ c.recovered, X p
  | _ => True

theorem Recalls.forget (hs : s.Recalls X) : (s.forget h).Recalls X := by
  cases s with
  | temporal c =>
      simp only [Scheme.forget]
      split
      · split <;> exact hs
      · exact hs
  | _ => trivial

theorem Bare.recalls (hs : s.Bare) : s.Recalls X := by
  cases s with
  | temporal c =>
      have hnone : c.recovered = none := hs
      simp [Recalls, hnone]
  | _ => trivial

theorem bare_ofLevel {l : Level} : (ofLevel l).Bare := by
  cases l <;> trivial

theorem recalls_of_level {l : Level} (hs : s.level = l) (hl : ∀ tl, l ≠ .temporal tl) :
    s.Recalls X := by
  cases s with
  | temporal c => exact absurd hs.symm (hl c.level)
  | _ => trivial

theorem bare_or_temporal (s : Scheme) : s.Bare ∨ ∃ c, s = .temporal c := by
  cases s with
  | temporal c => exact .inr ⟨c, rfl⟩
  | _ => exact .inl trivial

end Scheme

structure Request.Within (X : UInt32 → Prop) (r : Request) : Prop where
  assigned : ∀ p ∈ r.assigned, X p
  recovered : Assignment.Within X (r.recovered.getD [])

def Manners.within (X : UInt32 → Prop) : Manners where
  knows := Scheme.Recalls X
  asks _ := Request.Within X
  hands _ a := Assignment.Within X a.recovered

section

variable {σ α : Type} {X : UInt32 → Prop} {life : Lifecycle σ} {I : σ → Prop} {l : Level}
  {a : Activation} {e : Event} {now : Int64} {ranges : List BucketRange}

theorem Request.Wakes.within {r : Request} (hr : r.Wakes l a)
    (ha : Assignment.Within X a.recovered) : r.Within X := by
  have hassigned {p : UInt32}
      (hp : (Assignment.find? a.recovered r.key).bind Assignment.partition = some p) : X p := by
    obtain ⟨x, hx, hp⟩ := Option.bind_eq_some_iff.1 hp
    exact ha.partition (List.mem_of_find?_eq_some hx) p hp
  have hrecovered : Assignment.Within X
      (((Assignment.find? a.recovered r.key).map Assignment.children).getD []) := by
    cases hx : Assignment.find? a.recovered r.key with
    | none => exact Assignment.within_nil
    | some x => exact ha.children (List.mem_of_find?_eq_some hx)
  obtain ⟨hleft, hright⟩ := Prod.ext_iff.1 hr.legacy
  change r.assigned = _ at hleft
  change r.recovered = _ at hright
  constructor
  · rw [hleft]
    cases l with
    | episode l => exact fun p hp => (Option.not_mem_none p hp).elim
    | _ => exact fun p hp => hassigned hp
  · rw [hright]
    cases l with
    | episode l => exact Assignment.within_nil
    | temporal l => exact Assignment.within_nil
    | _ => exact hrecovered

theorem Request.within_of_asks {o : Occasion} (ho : o.plain) {s : Scheme} {r : Request}
    (hr : s.Asks o r) : r.Within X := by
  refine ⟨fun p hp => ?_, ?_⟩
  · rw [hr.assigned ho] at hp
    exact (Option.not_mem_none p hp).elim
  · rw [hr.recovered ho]
    exact Assignment.within_nil

section bare

variable {P : Request → Prop} (hlife : life.Serves P I)

abbrev Level.Plainly (l : Level) (P : Request → Prop) : Prop :=
  ∀ {o : Occasion} {s : Scheme} {r : Request}, o.plain → s.level = l → s.Asks o r → P r

variable (hP : l.Plainly P)

include hlife hP

theorem Lifecycle.Serves.bears_bare {o : Occasion} (ho : o.plain) :
    life.Bears o (fun s t => (s.level = l ∧ s.Bare) ∧ I t) fun _ => True where
  start {s r} hr t ht := by
    have hlevel {h : Handle} : (s.started r.key h).level = l := Scheme.level_started.trans ht.1.1
    exact (hlife.start (hP ho ht.1.1 hr) t ht.2).imp
      (fun _ _ hI => ⟨⟨hlevel, ht.1.2.started⟩, hI⟩) fun _ _ hI => ⟨trivial, ht.1, hI⟩
  stop {s k h} _ _ t ht := by
    have hlevel : (s.ended k).level = l := Scheme.level_ended.trans ht.1.1
    exact (hlife.stop h t ht.2).imp (fun _ _ hI => ⟨⟨hlevel, ht.1.2.ended⟩, hI⟩)
      fun _ _ hI => ⟨trivial, ⟨hlevel, ht.1.2.ended⟩, hI⟩
  notes hs ht := by
    refine ⟨?_, ht.2⟩
    cases hs with
    | clock c now => exact ⟨ht.1.1, trivial⟩
    | recovered c p hp => exact ⟨ht.1.1, hp ho⟩
    | finished c hc => exact ⟨ht.1.1, ht.1.2⟩
  plain _ ht := ht.1.2
  refuses _ := trivial

namespace Scheme

theorem bare_activate (ha : a.recovered = []) : Triple (Both (fun s => s = ofLevel l) I)
    (activate life a) (fun _ => Both (fun s => s.level = l ∧ s.Bare) I)
    fun _ => Both (fun s => s.level = l ∧ s.Bare) I := by
  have ho : (⟨a.trigger, True⟩ : Occasion).plain := trivial
  have hfits : a.Fits ⟨a.trigger, True⟩ := ⟨fun _ he => he, fun _ => ha⟩
  refine (bears_activate (hlife.bears_bare hP ho) hfits l).imp ?_ (fun _ _ h => h) fun _ _ h => h.2
  rintro ⟨_, t⟩ ⟨rfl, ht⟩
  exact ⟨rfl, ⟨level_ofLevel l, bare_ofLevel⟩, ht⟩

theorem bare_route : Keeps (Both (fun s => s.level = l ∧ s.Bare) I) (route life e) := by
  have ho : (⟨some e, True⟩ : Occasion).plain := trivial
  exact (bears_route (hlife.bears_bare hP ho) rfl).imp (fun _ h => h) (fun _ _ h => h)
    fun _ _ h => h.2

theorem bare_tick : Keeps (Both (fun s => s.level = l ∧ s.Bare) I) (tick life now) := by
  have ho : (⟨none, True⟩ : Occasion).plain := trivial
  exact (bears_tick (hlife.bears_bare hP ho) now).imp (fun _ h => h) (fun _ _ h => h)
    fun _ _ h => h.2

theorem bare_restrict : Keeps (Both (fun s => s.level = l ∧ s.Bare) I) (restrict life ranges) := by
  have ho : (⟨none, True⟩ : Occasion).plain := trivial
  refine (bears_restrict (hlife.bears_bare hP ho) ranges).imp ?_ (fun _ _ h => h) fun _ _ h => h.2
  rintro ⟨s, t⟩ ⟨⟨rfl, hs⟩, ht⟩
  cases s <;> exact ⟨⟨rfl, hs⟩, ht⟩

end Scheme

end bare

theorem TemporalController.within_sync {tl : TemporalLevel} {trigger : Option Event}
    (hlife : life.Serves (Request.Within X) I) :
    Keeps (Both (fun c => c.level = tl ∧ ∀ p ∈ c.recovered, X p) I) (sync life now trigger) := by
  refine keeps_get_bind fun (c, _) hc => ?_
  simp only
  split
  · refine keeps_get_bind fun (c', _) _ => ?_
    refine Triple.bind (keeps_first_modify fun _ h => h) fun _ => ?_
    split
    · exact keeps_second (hlife.stop _)
    · exact keeps_pure
  · split
    · refine Triple.bind (keeps_first_modify fun _ h => ⟨h.1, by simp⟩) fun _ => ?_
      exact hlife.keeps_start ⟨hc.1.2, Assignment.within_nil⟩ fun _ _ h => h
    · exact keeps_pure

theorem TemporalController.within_activate {tl : TemporalLevel}
    (hlife : life.Serves (Request.Within X) I) (ha : Assignment.Within X a.recovered) :
    Triple (Both (fun c => c.level = tl) I) (activate life a)
      (fun _ => Both (fun c => c.level = tl ∧ ∀ p ∈ c.recovered, X p) I)
      fun _ => Both (fun c => c.level = tl ∧ ∀ p ∈ c.recovered, X p) I := by
  refine Triple.bind (Triple.first fun _ => triple_modify fun c hc => ⟨⟨hc.1, ?_⟩, hc.2⟩)
    fun _ => within_sync hlife
  intro p hp
  obtain ⟨x, hx, hp⟩ := Option.bind_eq_some_iff.1 hp
  exact ha.partition (List.mem_of_find?_eq_some hx) p hp

namespace Scheme

theorem keeps_within {x : Act (Scheme × σ) α}
    (hbare : Keeps (Both (fun s => s.level = l ∧ s.Bare) I) x)
    (htemporal : ∀ c : TemporalController, Triple
      (fun p => p.1 = .temporal c ∧ (Manners.within X).Minding l I p) x
      (fun _ => (Manners.within X).Minding l I) fun _ => (Manners.within X).Minding l I) :
    Keeps ((Manners.within X).Minding l I) x := by
  rintro ⟨s, t⟩ ⟨⟨hlevel, hknows⟩, ht⟩
  rcases s.bare_or_temporal with hs | ⟨c, rfl⟩
  · have hdone (p : Scheme × σ) (hp : Both (fun s => s.level = l ∧ s.Bare) I p) :
        (Manners.within X).Minding l I p := ⟨⟨hp.1.1, hp.1.2.recalls⟩, hp.2⟩
    exact (hbare (s, t) ⟨⟨hlevel, hs⟩, ht⟩).imp (fun _ => hdone) fun _ => hdone
  · exact htemporal c (.temporal c, t) ⟨rfl, ⟨hlevel, hknows⟩, ht⟩

theorem minding_temporal {tl : TemporalLevel} (p : TemporalController × σ)
    (hp : Both (fun c => c.level = tl ∧ ∀ q ∈ c.recovered, X q) I p) :
    (Manners.within X).Minding (.temporal tl) I (.temporal p.1, p.2) :=
  ⟨⟨congrArg Level.temporal hp.1.1, hp.1.2⟩, hp.2⟩

variable (hlife : life.Serves (Request.Within X) I)

include hlife

theorem within_route : Keeps ((Manners.within X).Minding l I) (route life e) := by
  refine keeps_within (bare_route hlife fun ho _ => Request.within_of_asks ho) fun c => ?_
  rintro ⟨_, t⟩ ⟨rfl, hc⟩
  exact hc

theorem within_tick : Keeps ((Manners.within X).Minding l I) (tick life now) := by
  refine keeps_within (bare_tick hlife fun ho _ => Request.within_of_asks ho) fun c => ?_
  refine triple_get_bind fun (s, t) ⟨hs, hminding⟩ => ?_
  obtain rfl : s = .temporal c := hs
  obtain ⟨⟨rfl, hknows⟩, ht⟩ := hminding
  exact lift_triple ((TemporalController.within_sync hlife (c, t) ⟨⟨rfl, hknows⟩, ht⟩).imp
    (fun _ p => minding_temporal p) fun _ p => minding_temporal p)

theorem within_restrict : Keeps ((Manners.within X).Minding l I) (restrict life ranges) := by
  refine keeps_within (bare_restrict hlife fun ho _ => Request.within_of_asks ho) fun c => ?_
  rintro ⟨_, t⟩ ⟨rfl, hc⟩
  exact hc

theorem within_activate (ha : Assignment.Within X a.recovered) :
    Keeps ((Manners.within X).Minding l I) (activate life a) := by
  have hserves : Keeps (Serving l I) (activate life a) :=
    wakes_activate (hlife.mono fun _ hr => hr.within ha)
  cases l with
  | temporal tl =>
      refine triple_get_bind fun (s, t) ⟨⟨hlevel, _⟩, ht⟩ => ?_
      cases s with
      | temporal c =>
          obtain rfl := Level.temporal.inj hlevel
          exact lift_triple ((TemporalController.within_activate hlife ha (c, t) ⟨rfl, ht⟩).imp
            (fun _ p => minding_temporal p) fun _ p => minding_temporal p)
      | _ => cases hlevel
  | _ =>
      refine hserves.imp (fun _ hp => ⟨hp.1.1, hp.2⟩)
        (fun _ p hp => ⟨⟨hp.1, recalls_of_level hp.1 ?_⟩, hp.2⟩)
        fun _ p hp => ⟨⟨hp.1, recalls_of_level hp.1 ?_⟩, hp.2⟩ <;> simp

end Scheme

theorem Manners.within_lawful : (within X).Lawful where
  forget hs := Scheme.Recalls.forget hs
  activate hlife ha := (Scheme.within_activate hlife ha).imp
    (fun _ hp => ⟨⟨hp.1 ▸ Scheme.level_ofLevel _, hp.1 ▸ Scheme.bare_ofLevel.recalls⟩, hp.2⟩)
    (fun _ _ hp => hp) fun _ _ hp => hp
  route := Scheme.within_route
  tick := Scheme.within_tick
  restrict := Scheme.within_restrict

end

end EventContexts
