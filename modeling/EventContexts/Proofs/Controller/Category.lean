import EventContexts.Proofs.Tending

namespace EventContexts.CategoryController

open Act

variable {σ : Type} {life : Lifecycle σ} {l : Level} {e : Event}

theorem nodup_of_repeatedLabel? {seen : List String} {items : List CategoryItem}
    (h : CategoryLevel.repeatedLabel? seen items = none) :
    (items.map CategoryItem.label).Nodup ∧ ∀ i ∈ items, i.label ∉ seen := by
  induction items generalizing seen with
  | nil => simp
  | cons i rest ih =>
      rw [CategoryLevel.repeatedLabel?] at h
      split at h
      · cases h
      · next hi =>
          obtain ⟨hrest, hseen⟩ := ih h
          refine ⟨List.nodup_cons.2 ⟨fun hmem => ?_, hrest⟩, fun j hj => ?_⟩
          · obtain ⟨j, hj, hlabel⟩ := List.mem_map.1 hmem
            exact hseen j hj (hlabel ▸ List.mem_cons_self ..)
          · rcases List.mem_cons.1 hj with rfl | hj
            · exact hi
            · exact fun hs => hseen j hj (List.mem_cons_of_mem _ hs)

theorem nodup_labels {l : CategoryLevel} (h : l.flaw? = none) :
    (l.items.map CategoryItem.label).Nodup := by
  rw [CategoryLevel.flaw?] at h
  split at h
  · cases h
  · exact (nodup_of_repeatedLabel? (Option.map_eq_none_iff.1 h)).1

theorem routes_iff {l : CategoryLevel} (h : l.flaw? = none) {i : CategoryItem}
    (hi : i ∈ l.items) :
    (Level.category l).Routes e (.category i.label) ↔ l.admits i e = true := by
  constructor
  · rintro ⟨j, hj, hlabel, hadmits⟩
    have hij : i = j := List.inj_on_of_nodup_map (nodup_labels h) hi hj (Key.category.inj hlabel)
    exact hij ▸ hadmits
  · exact fun hadmits => ⟨i, hi, rfl, hadmits⟩

theorem targets_spec {c : CategoryController} (hl : c.level.flaw? = none) :
    Targets (.category c.level) e none c.children (c.targets e) := by
  let labels := (c.level.items.filter fun i => c.level.admits i e).map CategoryItem.label
  let child (label : String) : Option (Key × Handle) :=
    (c.children.find? (.category label)).map fun h => (.category label, h)
  have hlabels : labels.Nodup :=
    (nodup_labels hl).sublist (List.filter_sublist.map CategoryItem.label)
  refine ⟨labels.filterMap child, ?_, ?_, ?_⟩
  · rw [targets, List.filterMap_map, List.map_filterMap]
    refine List.filterMap_congr fun i _ => ?_
    simp only [Function.comp_apply, child]
    cases c.children.find? (.category i.label) <;> rfl
  · refine hlabels.filterMap fun x y p hx hy => ?_
    obtain ⟨h, -, rfl⟩ := Option.map_eq_some_iff.1 hx
    obtain ⟨h', -, heq⟩ := Option.map_eq_some_iff.1 hy
    exact (Key.category.inj (Prod.mk.inj heq).1).symm
  · rintro ⟨k, h⟩
    simp only [List.mem_filterMap, labels, List.mem_map, List.mem_filter, child,
      Option.map_eq_some_iff, Prod.mk.injEq, OrderedMap.find?_eq_some]
    constructor
    · rintro ⟨_, ⟨i, ⟨hi, hadmits⟩, rfl⟩, h', hmem, rfl, rfl⟩
      exact ⟨hmem, ⟨i, hi, rfl, hadmits⟩, by simp⟩
    · rintro ⟨hmem, ⟨i, hi, rfl, hadmits⟩, -⟩
      exact ⟨i.label, ⟨i, ⟨hi, hadmits⟩, rfl⟩, h, hmem, rfl, rfl⟩

variable {R : Request → Prop} {I : Brood → σ → Prop} {a : Activation}

theorem keeps_startItem {cl : CategoryLevel} (hlife : life.Honours R I)
    (hl : cl.flaw? = none) (hR : ∀ r, r.Answers (.category cl) a → R r) {p : CategoryItem × Nat}
    (hp : p.1 ∈ cl.items) :
    Keeps (fun q => Tended (.category cl) I (.category q.1) q.2) (startItem life a p) := by
  apply triple_get_bind
  rintro ⟨c, s⟩ ht
  have hlevel : c.level = cl := Level.category.inj ht.level
  simp only
  split
  · exact triple_return ht
  · next hc =>
      have hnew : Key.category p.1.label ∉ c.children.keys :=
        fun hmem => hc (OrderedMap.contains_iff.2 hmem)
      let r := Request.recovering
        { path := UInt32.ofNat p.2, key := .category p.1.label
          properties := (Level.category c.level).propertiesOf (.category p.1.label) .empty
          trigger := a.trigger.filter (c.level.admits p.1) }
        (Assignment.find? a.recovered (.category p.1.label))
      have hrk : r.key = .category p.1.label := by simp [r]
      have hanswers : r.Answers (.category cl) a := by
        refine ⟨fun _ e => ?_, fun hnil => ?_⟩
        · rw [hrk, Request.trigger_recovering, Option.filter_eq_some_iff, hlevel,
            routes_iff hl hp]
        · rw [Request.recovered_recovering rfl, hnil]
          rfl
      refine (Lifecycle.start_triple (c := c)
        (hlife.start (hR r hanswers) (hrk ▸ hnew))).imp ?_ ?_ ?_
      · rintro _ rfl
        exact ⟨rfl, ht.holds⟩
      · rintro _ ⟨c', t⟩ ⟨h, rfl, hI⟩
        refine ⟨ht.level, ?_, hrk ▸ hI⟩
        intro k hk
        rcases OrderedMap.mem_keys_insert.1 hk with rfl | hk
        · exact ⟨p.1, hlevel ▸ hp, rfl⟩
        · exact ht.sound k hk
      · rintro _ ⟨c', t⟩ ⟨rfl, hI⟩
        exact ⟨ht.level, ht.sound, hI⟩

theorem keeps_activate {cl : CategoryLevel} (hlife : life.Honours R I) (hl : cl.flaw? = none)
    (hR : ∀ r, r.Answers (.category cl) a → R r) :
    Keeps (fun p => Tended (.category cl) I (.category p.1) p.2) (activate life a) := by
  apply triple_get_bind
  rintro ⟨c, s⟩ ht
  have hlevel : c.level = cl := Level.category.inj ht.level
  have hitem : ∀ p ∈ c.level.items.zipIdx,
      Keeps (fun q => Tended (.category cl) I (.category q.1) q.2) (startItem life a p) :=
    fun p hp => keeps_startItem hlife hl hR (hlevel ▸ List.fst_mem_of_mem_zipIdx hp)
  exact (triple_forEach hitem).starting ht

end EventContexts.CategoryController
