import EventContexts.Proofs.Entries

namespace EventContexts

namespace Table

section traverse

variable {α ω ε : Type}

theorem traverse_id {f : UInt32 → α → ω → Except ε α × ω} {t : Table α} {w : ω}
    (hf : ∀ k a, f k a w = (.ok a, w)) : t.traverse f w = (.ok t, w) := by
  have hin (es : List (UInt32 × α)) : traverseIn f es w = (.ok ⟨es, rfl⟩, w) := by
    induction es with
    | nil => rfl
    | cons e es ih => simp only [traverseIn, hf, ih]
  simp only [traverse, hin]

end traverse

section map

variable {α β γ : Type}

def map (f : α → β) (t : Table α) : Table β :=
  ⟨t.entries.map fun e => (e.1, f e.2), by
    rw [List.map_map]
    exact t.ascending⟩

theorem entries_map {f : α → β} {t : Table α} :
    (t.map f).entries = t.entries.map fun e => (e.1, f e.2) := rfl

theorem map_map {f : α → β} {g : β → γ} {t : Table α} :
    (t.map f).map g = t.map fun a => g (f a) :=
  ext_entries List.map_map

theorem map_eq_self {f : α → α} {t : Table α} (h : ∀ e ∈ t.entries, f e.2 = e.2) :
    t.map f = t :=
  ext_entries (List.map_eq_self fun e he => congrArg (Prod.mk e.1) (h e he))

theorem erase_map {f : α → β} {t : Table α} {k : UInt32} :
    (t.map f).erase k = (t.erase k).map f :=
  ext_entries List.filter_map

theorem erase_comm {t : Table α} {k l : UInt32} : (t.erase k).erase l = (t.erase l).erase k := by
  refine ext_entries ?_
  simp only [erase, List.filter_filter, Bool.and_comm]

theorem map_eq_insert {f : α → α} {t : Table α} {k : UInt32} {a : α} (ha : (k, a) ∈ t.entries)
    (h : ∀ e ∈ t.entries, e.1 ≠ k → f e.2 = e.2) : t.map f = t.insert k (f a) := by
  obtain ⟨pre, post, hsplit, herase, hinsert⟩ := split_of_mem ha
  have hsame : ∀ e ∈ pre ++ post, (e.1, f e.2) = e := by
    intro e he
    rw [← herase] at he
    obtain ⟨he, hne⟩ := mem_erase.1 he
    exact congrArg (Prod.mk e.1) (h e he hne)
  obtain ⟨hpre, hpost⟩ := List.forall_mem_append.1 hsame
  refine ext_entries ?_
  rw [hinsert, entries_map, hsplit, List.map_append, List.map_cons, List.map_eq_self hpre,
    List.map_eq_self hpost]

end map

section related

variable {α β γ : Type} {S S' : α → β → Prop} {T : β → γ → Prop} {t : Table α} {u : Table β}
  {v : Table γ} {a : α} {b : β}

def Rel (S : α → β → Prop) (t : Table α) (u : Table β) : Prop :=
  List.Forall₂ (fun e e' => e.1 = e'.1 ∧ S e.2 e'.2) t.entries u.entries

theorem rel_findIn {es : List (UInt32 × α)} {es' : List (UInt32 × β)}
    (h : List.Forall₂ (fun e e' => e.1 = e'.1 ∧ S e.2 e'.2) es es') (k : UInt32) :
    Option.Rel S (findIn k es) (findIn k es') := by
  induction h with
  | nil => exact .none
  | @cons e e' es es' he _ ih =>
      obtain ⟨l, a⟩ := e
      obtain ⟨_, b⟩ := e'
      obtain ⟨rfl, hab⟩ := he
      by_cases hk : l = k
      · simp only [findIn, hk, if_true]
        exact .some hab
      · simp only [findIn, hk, if_false]
        exact ih

theorem rel_putIn {es : List (UInt32 × α)} {es' : List (UInt32 × β)}
    (h : List.Forall₂ (fun e e' => e.1 = e'.1 ∧ S e.2 e'.2) es es') (k : UInt32) (hab : S a b) :
    List.Forall₂ (fun e e' => e.1 = e'.1 ∧ S e.2 e'.2) (putIn k a es) (putIn k b es') := by
  induction h with
  | nil => exact .cons ⟨rfl, hab⟩ .nil
  | @cons e e' es es' he hes ih =>
      obtain ⟨l, x⟩ := e
      obtain ⟨_, y⟩ := e'
      obtain ⟨rfl, hxy⟩ := he
      simp only [putIn]
      split
      · exact .cons ⟨rfl, hab⟩ (.cons ⟨rfl, hxy⟩ hes)
      · split
        · exact .cons ⟨rfl, hab⟩ hes
        · exact .cons ⟨rfl, hxy⟩ ih

namespace Rel

theorem get? (h : t.Rel S u) (k : UInt32) : t.get? k = none ∧ u.get? k = none ∨
    ∃ a b, t.get? k = some a ∧ u.get? k = some b ∧ S a b := by
  have hfound : Option.Rel S (t.get? k) (u.get? k) := rel_findIn h k
  revert hfound
  cases t.get? k <;> cases u.get? k <;> rintro (hab | -)
  · exact .inl ⟨rfl, rfl⟩
  · exact .inr ⟨_, _, rfl, rfl, hab⟩

theorem contains (h : t.Rel S u) (k : UInt32) : t.contains k = u.contains k := by
  rw [Table.contains, Table.contains]
  rcases h.get? k with ⟨ht, hu⟩ | ⟨a, b, ht, hu, -⟩
  · rw [ht, hu, Option.isSome_none, Option.isSome_none]
  · rw [ht, hu, Option.isSome_some, Option.isSome_some]

theorem insert (h : t.Rel S u) (k : UInt32) (hab : S a b) : (t.insert k a).Rel S (u.insert k b) :=
  rel_putIn h k hab

theorem erase (h : t.Rel S u) (k : UInt32) : (t.erase k).Rel S (u.erase k) := by
  refine List.rel_filter ?_ h
  rintro ⟨l, a⟩ ⟨_, b⟩ ⟨rfl, -⟩
  exact Iff.rfl

theorem replace (h : t.Rel S u) (k : UInt32) (hab : S a b) :
    (t.replace k a).Rel S (u.replace k b) := by
  rw [Table.replace, Table.replace, h.contains]
  split
  · exact h.insert k hab
  · exact h

end Rel

theorem Rel.mono (h : t.Rel S u) (hS : ∀ e ∈ t.entries, ∀ b, S e.2 b → S' e.2 b) : t.Rel S' u :=
  List.Forall₂.imp (fun e _ he => ⟨he.2.1, hS e he.1 _ he.2.2⟩)
    ((List.forall₂_and_left t.entries u.entries).2 ⟨fun _ he => he, h⟩)

theorem Rel.comp (h : t.Rel S u) (h' : u.Rel T v) : t.Rel (fun a c => ∃ b, S a b ∧ T b c) v := by
  refine (List.Forall₂.comp h h').imp ?_
  rintro e e'' ⟨e', he, he'⟩
  exact ⟨he.1.trans he'.1, e'.2, he.2, he'.2⟩

theorem rel_insert {S : α → α → Prop} {k : UInt32} {a a' : α} (h : (k, a) ∈ t.entries)
    (ha : S a a') (hothers : ∀ e ∈ t.entries, e.1 ≠ k → S e.2 e.2) : t.Rel S (t.insert k a') := by
  obtain ⟨before, after, hsplit, herase, hinsert⟩ := split_of_mem h
  have hsame : ∀ e ∈ before ++ after, e.1 = e.1 ∧ S e.2 e.2 := by
    intro e he
    rw [← herase, mem_erase] at he
    exact ⟨rfl, hothers e he.1 he.2⟩
  rw [Rel, hsplit, hinsert]
  refine List.rel_append ?_ (.cons ⟨rfl, ha⟩ ?_)
  · exact List.forall₂_same.2 fun e he => hsame e (List.mem_append_left _ he)
  · exact List.forall₂_same.2 fun e he => hsame e (List.mem_append_right _ he)

theorem Rel.flatMap_eq {δ : Type} (h : t.Rel S u) {f : UInt32 × α → List δ}
    {g : UInt32 × β → List δ} (hfg : ∀ k a b, S a b → g (k, b) = f (k, a)) :
    u.entries.flatMap g = t.entries.flatMap f := by
  refine (List.Forall₂.flatMap_eq (h.imp ?_)).symm
  rintro ⟨k, a⟩ ⟨_, b⟩ ⟨rfl, hab⟩
  exact (hfg k a b hab).symm

end related

end Table

end EventContexts
