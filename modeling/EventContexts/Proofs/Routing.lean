import Mathlib.Data.List.Induction
import EventContexts.Proofs.Addenda
import EventContexts.Proofs.Staffing
/-!
The constraints that a partition adds to filters agree with the way events take to it: an event
that every level on the way sends there passes them all.
-/

namespace EventContexts

variable {e : Event} {s : Statement} {f : HeldFilter}

theorem Value.numericCmp_self (v : Value) : v.numericCmp v = .eq := by
  rw [numericCmp]
  cases v.asNumeric? with
  | none => exact cmp_self v
  | some x => simp [Binary64.totalCompare]

instance Level.decidableRoutes (e : Event) : (l : Level) → (key : Key) → Decidable (l.Routes e key)
  | .keyed l, key => inferInstanceAs (Decidable (l.keyFor? e = some key))
  | .category l, key =>
      inferInstanceAs (Decidable (∃ i ∈ l.items, key = .category i.label ∧ l.admits i e = true))
  | .hash l, key =>
      decidable_of_iff ((l.bucketOf? e).map Key.hash = some key) <| by
        rw [Option.map_eq_some_iff, Routes]
        exact exists_congr fun bucket => by rw [and_comm, eq_comm]
  | .episode _, _ => inferInstanceAs (Decidable True)
  | .temporal _, _ => inferInstanceAs (Decidable True)

def Statement.matches (s : Statement) (e : Event) : Bool :=
  s.filters.any fun f => f.filter.accepts e

def Path.Routes (p : Path) (e : Event) : Prop := ∀ step ∈ p, step.level.Routes e step.key

instance Path.decidableRoutes (p : Path) (e : Event) : Decidable (p.Routes e) :=
  inferInstanceAs (Decidable (∀ step ∈ p, step.level.Routes e step.key))

namespace Addendum

variable {a : Addendum} {contributions : List (HeldFilter × List Constraint)} {c : Constraint}

theorem mem_constraintsFor_addAll (hc : c ∈ (a.addAll contributions).constraintsFor f) :
    c ∈ a.constraintsFor f ∨ ∃ cs, (f, cs) ∈ contributions ∧ c ∈ cs := by
  rw [constraintsFor_addAll, List.mem_append, List.mem_flatMap] at hc
  rcases hc with ha | ⟨⟨g, cs⟩, hmem, hcs⟩
  · exact .inl ha
  · obtain ⟨hin, hg⟩ := List.mem_filter.1 hmem
    exact .inr ⟨cs, of_decide_eq_true hg ▸ hin, hcs⟩

end Addendum

namespace Level

theorem keyOf_accepts {i : KeyedItem} {c : Constraint}
    (hc : c ∈ (i.properties.zip (KeyedLevel.keyOf i e)).map fun (p, v) => Constraint.equal p v) :
    c.accepts e = true := by
  have hzip : i.properties.zip (i.properties.map e.field) =
      i.properties.map fun p => (p, e.field p) := by
    have hboth := List.zip_map' (f := id) (g := e.field) (l := i.properties)
    rwa [List.map_id] at hboth
  rw [KeyedLevel.keyOf, hzip, List.map_map] at hc
  obtain ⟨p, -, rfl⟩ := List.mem_map.1 hc
  change ((e.field p).numericCmp (e.field p) == .eq) = true
  rw [Value.numericCmp_self]
  rfl

theorem contributions_accept {l : Level} {key : Key} {cs : List Constraint} {c : Constraint}
    (hl : l.flaw? = none) (hroutes : l.Routes e key) (hf : f.filter.accepts e = true)
    (hcs : (f, cs) ∈ l.contributions s key) (hc : c ∈ cs) : c.accepts e = true := by
  have htype : e.type = f.eventType := by
    rw [Filter.accepts, Bool.and_eq_true, beq_iff_eq] at hf
    exact hf.1
  cases l with
  | keyed l =>
      obtain ⟨i, hi, rfl⟩ := Option.map_eq_some_iff.1 hroutes
      obtain ⟨b, hb, heq⟩ := List.mem_map.1 hcs
      obtain ⟨g, hg, hbinding⟩ := List.mem_filterMap.1 hb
      obtain ⟨j, hj, rfl⟩ := Option.map_eq_some_iff.1 hbinding
      obtain ⟨rfl, rfl⟩ := Prod.mk.inj heq
      have hij : i = j := Option.some.inj (hi.symm.trans (htype ▸ hj))
      subst hij
      exact keyOf_accepts hc
  | category l =>
      obtain ⟨i, hi, rfl, hadmits⟩ := hroutes
      rw [CategoryLevel.admits, Bool.and_eq_true, List.all_eq_true] at hadmits
      rw [contributions] at hcs
      split at hcs
      · next item hitem =>
          obtain ⟨b, hb, heq⟩ := List.mem_map.1 hcs
          obtain ⟨rfl, rfl⟩ := Prod.mk.inj heq
          have hlabel : item.label = i.label := by simpa using List.find?_some hitem
          have hsame : item = i := List.inj_on_of_nodup_map (CategoryController.nodup_labels hl)
            (List.mem_of_find?_eq_some hitem) hi hlabel
          exact hadmits.2 c (hsame ▸ hc)
      · cases hcs
  | hash l =>
      obtain ⟨bucket, rfl, hbucket⟩ := hroutes
      rw [HashLevel.bucketOf?] at hbucket
      split at hbucket
      · obtain ⟨b, hb, heq⟩ := List.mem_map.1 hcs
        obtain ⟨rfl, rfl⟩ := Prod.mk.inj heq
        obtain rfl := List.mem_singleton.1 hc
        rw [Constraint.accepts, Test.holds, Option.some.inj hbucket, beq_self_eq_true]
      · cases hbucket
  | episode l => simp [contributions] at hcs
  | temporal l => simp [contributions] at hcs

end Level

namespace Path

variable {p : Path}

theorem addendum_accepts (hp : ∀ step ∈ p, step.level.flaw? = none) (hroutes : p.Routes e)
    (hf : f.filter.accepts e = true) : (p.addendum s).accepts f e = true := by
  have hall : ∀ c ∈ (p.addendum s).constraintsFor f, c.accepts e = true := by
    induction p using List.reverseRecOn with
    | nil =>
        intro c hc
        cases hc
    | append_singleton p step ih =>
        intro c hc
        rw [addendum, List.foldl_append] at hc
        have hstep : step ∈ p ++ [step] := List.mem_append_right _ (List.mem_singleton_self _)
        rcases Addendum.mem_constraintsFor_addAll hc with hbefore | ⟨cs, hcs, hmem⟩
        · refine ih (fun t ht => hp t ?_) (fun t ht => hroutes t ?_) c hbefore
          · exact List.mem_append_left _ ht
          · exact List.mem_append_left _ ht
        · exact Level.contributions_accept (hp step hstep) (hroutes step hstep) hf hcs hmem
  rw [Addendum.accepts, hf, Bool.true_and, List.all_eq_true]
  exact hall

end Path

namespace Leaf

variable {d : Descriptor} {ss : List Statement} {ℓ : Leaf}

theorem Staffed.accepts (h : ℓ.Staffed d ss) (hp : ∀ step ∈ ℓ.path, step.level.flaw? = none)
    (hroutes : ℓ.path.Routes e) {a : Agent} (ha : a ∈ ℓ.running.agents) :
    a.accepts e = a.statement.matches e := by
  obtain ⟨recovering, hrequest⟩ := h.requests a ha
  have haddendum : a.addendum = ℓ.path.addendum a.statement :=
    congrArg StartRequest.addendum hrequest
  rw [Agent.accepts, Statement.matches, haddendum, Bool.eq_iff_iff, List.any_eq_true,
    List.any_eq_true]
  refine exists_congr fun f => and_congr_right fun _ => ?_
  constructor
  · intro hacc
    rw [Addendum.accepts, Bool.and_eq_true] at hacc
    exact hacc.1
  · exact Path.addendum_accepts hp hroutes

end Leaf

end EventContexts
