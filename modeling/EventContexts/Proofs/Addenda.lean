import EventContexts.Filter
import EventContexts.Proofs.Entries

namespace EventContexts

namespace Addendum

variable {a b c : Addendum} {f : HeldFilter} {e : Event}
  {contributions : List (HeldFilter × List Constraint)}

theorem addAll_cons {x : HeldFilter × List Constraint} :
    a.addAll (x :: contributions) = (a.add x.1 x.2).addAll contributions := rfl

theorem constraintsFor_addAll : (a.addAll contributions).constraintsFor f =
    a.constraintsFor f ++ (contributions.filter fun c => c.1 = f).flatMap Prod.snd := by
  induction contributions generalizing a with
  | nil => simp [addAll]
  | cons c rest ih =>
      rw [addAll_cons, ih, constraintsFor_add]
      by_cases hc : c.1 = f <;> simp [hc]

theorem mem_keys_addAll :
    f ∈ (a.addAll contributions).keys ↔ f ∈ a.keys ∨ f ∈ contributions.map Prod.fst := by
  induction contributions generalizing a with
  | nil => simp [addAll]
  | cons c rest ih =>
      have hadd : f ∈ (a.add c.1 c.2).keys ↔ f = c.1 ∨ f ∈ a.keys := OrderedMap.mem_keys_insert
      rw [addAll_cons, ih, hadd, List.map_cons, List.mem_cons]
      tauto

theorem keys_addAll (h : (contributions.map Prod.fst).Nodup) :
    (a.addAll contributions).keys =
      a.keys ++ (contributions.map Prod.fst).filter (· ∉ a.keys) := by
  induction contributions generalizing a with
  | nil => simp [addAll]
  | cons c rest ih =>
      obtain ⟨hc, hrest⟩ := List.nodup_cons.1 h
      have hadd : (a.add c.1 c.2).keys = if c.1 ∈ a.keys then a.keys else a.keys ++ [c.1] :=
        OrderedMap.keys_insert
      rw [addAll_cons, ih hrest, List.map_cons, hadd]
      by_cases hmem : c.1 ∈ a.keys
      · simp [hmem]
      · have hothers : (rest.map Prod.fst).filter (· ∉ a.keys ++ [c.1]) =
            (rest.map Prod.fst).filter (· ∉ a.keys) := by
          apply List.filter_congr
          intro g hg
          have hne : g ≠ c.1 := fun heq => hc (heq ▸ hg)
          simp [hne]
        rw [if_neg hmem, hothers, List.filter_cons_of_pos (by simpa using hmem)]
        simp

theorem find?_eq : a.find? f = if f ∈ a.keys then some (a.constraintsFor f) else none := by
  rw [constraintsFor]
  split
  · next hmem =>
      obtain ⟨cs, hcs⟩ := OrderedMap.mem_keys.1 hmem
      rw [OrderedMap.find?_eq_some.2 hcs]
      rfl
  · next hnew => exact OrderedMap.find?_eq_none.2 hnew

theorem eq_of_constraintsFor (hkeys : a.keys = b.keys)
    (hconstraints : ∀ f, a.constraintsFor f = b.constraintsFor f) : a = b := by
  apply OrderedMap.eq_of_find? hkeys
  intro f
  rw [find?_eq, find?_eq, hkeys, hconstraints]

theorem flatMap_entries {es : List (HeldFilter × List Constraint)}
    (h : (es.map Prod.fst).Nodup) :
    (es.filter fun x => x.1 = f).flatMap Prod.snd = (Entries.find? f es).getD [] := by
  induction es with
  | nil => rfl
  | cons x rest ih =>
      obtain ⟨g, cs⟩ := x
      obtain ⟨hg, hrest⟩ := List.nodup_cons.1 h
      by_cases heq : g = f
      · subst heq
        have hothers : rest.filter (fun x => x.1 = g) = [] := by
          simp only [List.filter_eq_nil_iff, decide_eq_true_eq]
          intro x hx hxg
          exact hg (List.mem_map.2 ⟨x, hx, hxg⟩)
        simp [hothers, Entries.find?]
      · simp [heq, Entries.find?, ih hrest]

theorem constraintsFor_merge :
    (a.merge b).constraintsFor f = a.constraintsFor f ++ b.constraintsFor f := by
  rw [merge, constraintsFor_addAll, flatMap_entries b.nodup]
  rfl

theorem accepts_merge : (a.merge b).accepts f e = (a.accepts f e && b.accepts f e) := by
  rw [accepts, accepts, accepts, constraintsFor_merge, List.all_append]
  cases f.filter.accepts e <;> simp

theorem keys_merge : (a.merge b).keys = a.keys ++ b.keys.filter (· ∉ a.keys) :=
  keys_addAll b.nodup

theorem merge_empty : a.merge .empty = a := rfl

theorem empty_merge : merge .empty a = a := by
  apply eq_of_constraintsFor
  · rw [keys_merge]
    simp
  · intro f
    rw [constraintsFor_merge]
    rfl

theorem merge_assoc : (a.merge b).merge c = a.merge (b.merge c) := by
  apply eq_of_constraintsFor
  · simp only [keys_merge, List.filter_append, List.append_assoc, List.filter_filter]
    congr 2
    apply List.filter_congr
    intro f _
    by_cases hf : f ∈ a.keys <;> simp [hf]
  · intro f
    simp only [constraintsFor_merge, List.append_assoc]

/-- Merging adds up. Two filters that ask for the same events are kept apart. -/
theorem merge_additive (a b c : Addendum) :
    (∀ f, (a.merge b).constraintsFor f = a.constraintsFor f ++ b.constraintsFor f) ∧
      (∀ f e, (a.merge b).accepts f e = (a.accepts f e && b.accepts f e)) ∧
      (a.merge b).merge c = a.merge (b.merge c) ∧
      a.merge .empty = a ∧ merge .empty a = a ∧
      (a.merge b).keys = a.keys ++ b.keys.filter (· ∉ a.keys) ∧
      ∀ filter i j cs, (a.add ⟨i, filter⟩ cs).constraintsFor ⟨j, filter⟩ =
        a.constraintsFor ⟨j, filter⟩ ++ if i = j then cs else [] := by
  refine ⟨fun f => constraintsFor_merge, fun f e => accepts_merge, merge_assoc, merge_empty,
    empty_merge, keys_merge, ?_⟩
  intro filter i j cs
  rw [constraintsFor_add]
  by_cases hij : i = j <;> simp [hij]

end Addendum

end EventContexts
