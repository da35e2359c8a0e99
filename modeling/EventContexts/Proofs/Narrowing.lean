import EventContexts.Proofs.Grouping
/-!
What an instance is told about its partition depends on the way there alone: each level on the way
narrows the statement's filters by its key, and shows its properties.
-/

namespace EventContexts

namespace Level

variable {l : Level} {s : Statement} {f : HeldFilter} {key : Key}

/-- What a level asks of the events of a filter in the partition of a key, if the level concerns
the filter at all. -/
def narrowing? (f : HeldFilter) : Level → Key → Option (List Constraint)
  | .keyed l, .keyed values => (l.itemFor? f.eventType).map fun i =>
      (i.properties.zip values).map fun (p, v) => Constraint.equal p v
  | .category l, .category label =>
      if f.eventType = l.eventType then (l.item? label).map CategoryItem.constraints else none
  | .hash l, .hash bucket =>
      if f.eventType = l.eventType then some [⟨l.property, .hashBucket l.granularity bucket⟩]
      else none
  | _, _ => none

def narrowing (l : Level) (f : HeldFilter) (key : Key) : List Constraint :=
  (l.narrowing? f key).getD []

theorem contributions_eq : l.contributions s key =
    s.filters.filterMap fun f => (l.narrowing? f key).map fun cs => (f, cs) := by
  cases l with
  | keyed l =>
      cases key with
      | keyed values =>
          simp only [contributions, bindings, KeyedLevel.bindings, List.map_filterMap, narrowing?]
          refine List.filterMap_congr fun f _ => ?_
          cases l.itemFor? f.eventType <;> rfl
      | _ => simp [contributions, narrowing?]
  | category l =>
      cases key with
      | category label =>
          simp only [contributions, bindings, narrowing?]
          cases l.item? label with
          | none => simp
          | some i =>
              dsimp only
              rw [List.map_map, ← List.filterMap_eq_map, List.filterMap_filter]
              refine List.filterMap_congr fun f _ => ?_
              by_cases hf : f.eventType = l.eventType <;> simp [hf]
      | _ => simp [contributions, narrowing?]
  | hash l =>
      cases key with
      | hash bucket =>
          simp only [contributions, bindings, narrowing?]
          rw [List.map_map, ← List.filterMap_eq_map, List.filterMap_filter]
          refine List.filterMap_congr fun f _ => ?_
          by_cases hf : f.eventType = l.eventType <;> simp [hf]
      | _ => simp [contributions, narrowing?]
  | _ => simp [contributions, narrowing?]

theorem flatMap_contributions :
    ((l.contributions s key).filter fun c => c.1 = f).flatMap Prod.snd =
      (List.replicate (s.filters.count f) (l.narrowing f key)).flatten := by
  rw [contributions_eq, narrowing]
  induction s.filters with
  | nil => rfl
  | cons g rest ih =>
      by_cases hg : g = f
      · subst hg
        rw [List.count_cons_self, List.replicate_succ, List.flatten_cons, ← ih]
        cases hasked : l.narrowing? g key <;> simp [hasked]
      · rw [List.count_cons_of_ne hg, ← ih]
        cases hasked : l.narrowing? g key <;> simp [hasked, hg]

theorem filter_of_mem_contributions (h : f ∈ (l.contributions s key).map Prod.fst) :
    f ∈ s.filters := by
  obtain ⟨c, hc, rfl⟩ := List.mem_map.1 h
  rw [contributions_eq] at hc
  obtain ⟨g, hg, hasked⟩ := List.mem_filterMap.1 hc
  obtain ⟨cs, -, rfl⟩ := Option.map_eq_some_iff.1 hasked
  exact hg

end Level

namespace Declaration

variable {d : Declaration} {path : Path}

def fields (d : Declaration) (path : Path) : List (String × Value) :=
  if 1 < d.depth then
    (d.levels.zip path.properties).map fun (l, props) => (l.name, Value.ofProps props)
  else path.properties.flatMap OrderedMap.entries

theorem isNested_iff :
    (Descriptor.ofLevels d.name d.levels).isNested = true ↔ 1 < d.levels.length := by
  rw [Descriptor.isNested, Descriptor.ofLevels, List.length_map, decide_eq_true_eq]

theorem data_builtin {partition : UInt32} :
    ((Descriptor.ofLevels d.name d.levels).builtin partition path.properties).data =
      OrderedMap.ofPairs (("name", .str d.name) :: ("id", toValue partition) :: d.fields path) := by
  have hzip : ((Descriptor.ofLevels d.name d.levels).levels.zip path.properties).map
        (fun e => (e.1.name, Value.ofProps e.2)) =
      (d.levels.zip path.properties).map fun e => (e.1.name, Value.ofProps e.2) := by
    rw [Descriptor.ofLevels, List.zip_map_left, List.map_map]
    rfl
  rw [Descriptor.builtin, fields, depth, ← hzip]
  simp only [isNested_iff]
  rfl

end Declaration

namespace Path

variable {p : Path} {s : Statement} {f : HeldFilter}

theorem constraintsFor_addendum : (p.addendum s).constraintsFor f =
    p.flatMap fun step =>
      (List.replicate (s.filters.count f) (step.level.narrowing f step.key)).flatten := by
  induction p using List.reverseRecOn with
  | nil => rfl
  | append_singleton p step ih =>
      rw [addendum, List.foldl_append, List.foldl_cons, List.foldl_nil, ← addendum,
        Addendum.constraintsFor_addAll, ih, Level.flatMap_contributions, List.flatMap_append,
        List.flatMap_singleton]

theorem filter_of_mem_addendum (h : f ∈ (p.addendum s).keys) : f ∈ s.filters := by
  induction p using List.reverseRecOn with
  | nil => cases h
  | append_singleton p step ih =>
      rw [addendum, List.foldl_append] at h
      rcases Addendum.mem_keys_addAll.1 h with h | h
      · exact ih h
      · exact Level.filter_of_mem_contributions h

def shown (p : Path) : List (String × Value) :=
  let each := p.map fun step => (step.level.name, step.level.propertiesOf step.key step.properties)
  if 1 < p.length then each.map fun (name, props) => (name, Value.ofProps props)
  else each.flatMap fun (_, props) => props.entries

theorem fields_eq_shown {d : Declaration} (h : p.map Step.level = d.levels) :
    d.fields p = p.shown := by
  have hdepth : d.depth = p.length := by rw [Declaration.depth, ← h, List.length_map]
  have hzip : d.levels.zip p.properties =
      p.map fun step => (step.level, step.level.propertiesOf step.key step.properties) := by
    rw [← h]
    exact List.zip_map' ..
  rw [Declaration.fields, shown, hdepth, hzip, List.map_map, List.map_map, List.flatMap_map,
    properties, List.flatMap_map]
  rfl

theorem builtin_eq {d : Declaration} (h : p.map Step.level = d.levels) {partition : UInt32} :
    (Descriptor.ofLevels d.name d.levels).builtin partition p.properties =
      { type := "ContextProperties_" ++ d.name
        data := OrderedMap.ofPairs
          (("name", .str d.name) :: ("id", toValue partition) :: p.shown) } := by
  rw [← fields_eq_shown h, ← Declaration.data_builtin]
  rfl

theorem nodup_shown (h : (p.map fun step => step.level.name).Nodup) :
    (p.shown.map Prod.fst).Nodup := by
  rw [shown]
  split
  · rw [List.map_map, List.map_map]
    exact h
  · match p with
    | [] => exact List.nodup_nil
    | [step] =>
        rw [List.map_singleton, List.flatMap_singleton]
        exact OrderedMap.nodup _
    | _ :: _ :: _ => simp_all

theorem level_of_mem_shown (hnested : 1 < p.length) {name : String}
    (h : name ∈ p.shown.map Prod.fst) : ∃ step ∈ p, step.level.name = name := by
  rw [shown, if_pos hnested, List.map_map, List.map_map] at h
  exact List.mem_map.1 h

end Path

namespace Level

variable {l : Level} {key : Key} {captured : Props} {k : String} {v : Value}

inductive Shown : String → Value → Prop
  | key (i : Nat) (v : Value) : Shown ("key" ++ toString i) v
  | label (label : String) : Shown "label" (.str label)
  | startTime (ms : Int64) : Shown "startTime" (.timestamp ms)
  | endTime {v : Value} (h : PropertyType.timestamp.accepts v = true) : Shown "endTime" v
  | initiator (v : Value) : Shown initiatorTag v

theorem shown_of_times {start : Int64} {stop : Value}
    (hstop : PropertyType.timestamp.accepts stop = true)
    (h : (k, v) ∈ [("startTime", .timestamp start), ("endTime", stop)]) : Shown k v := by
  simp only [List.mem_cons, Prod.mk.injEq, List.not_mem_nil, or_false] at h
  rcases h with ⟨rfl, rfl⟩ | ⟨rfl, rfl⟩
  · exact .startTime start
  · exact .endTime hstop

theorem endTime_accepted {el : EpisodeLevel} {start : Int64} :
    PropertyType.timestamp.accepts (el.endTime start) = true := by
  rw [EpisodeLevel.endTime]
  split <;> rfl

theorem shown_of_find? (h : (l.propertiesOf key captured).find? k = some v) : Shown k v := by
  cases l with
  | keyed l =>
      cases key with
      | keyed values =>
          obtain ⟨i, hi, heq⟩ := List.mem_mapIdx.1 (OrderedMap.mem_of_find?_ofPairs h)
          obtain ⟨rfl, rfl⟩ := Prod.mk.inj heq
          exact .key ..
      | _ => cases h
  | category l =>
      cases key with
      | category label =>
          have hmem := List.mem_singleton.1 (OrderedMap.mem_of_find?_ofPairs h)
          obtain ⟨rfl, rfl⟩ := Prod.mk.inj hmem
          exact .label label
      | _ => cases h
  | hash l => cases h
  | episode l =>
      have hinitiator {times : Props} {initiator : Value}
          (h : (times.insert initiatorTag initiator).find? k = some v)
          (htimes : times.find? k = some v → Shown k v) : Shown k v := by
        rw [OrderedMap.find?_insert] at h
        split at h
        · next hk =>
            subst hk
            exact .initiator v
        · exact htimes h
      cases key with
      | episode start number =>
          have htimes (h : (OrderedMap.ofPairs [("startTime", .timestamp start),
              ("endTime", l.endTime start)]).find? k = some v) : Shown k v :=
            shown_of_times endTime_accepted (OrderedMap.mem_of_find?_ofPairs h)
          simp only [propertiesOf] at h
          split at h
          · exact hinitiator h htimes
          · exact htimes h
      | _ =>
          simp only [propertiesOf] at h
          split at h
          · refine hinitiator h fun h => ?_
            cases h
          · cases h
  | temporal l => exact shown_of_times rfl (OrderedMap.mem_of_find?_ofPairs h)

theorem propertiesOf_ne (h : k ∈ (l.propertiesOf key captured).keys) : k ≠ "name" ∧ k ≠ "id" := by
  obtain ⟨v, hv⟩ := OrderedMap.mem_keys.1 h
  cases shown_of_find? (OrderedMap.find?_eq_some.2 hv) with
  | key i =>
      constructor <;> intro h <;> simpa [String.toList_append] using congrArg String.toList h
  | _ => decide

end Level

namespace Path

variable {p : Path} {k : String}

theorem shown_ne (h : 1 < p.length → ∀ step ∈ p, step.level.name ≠ "name" ∧ step.level.name ≠ "id")
    (hk : k ∈ p.shown.map Prod.fst) : k ≠ "name" ∧ k ≠ "id" := by
  by_cases hnested : 1 < p.length
  · obtain ⟨step, hstep, rfl⟩ := level_of_mem_shown hnested hk
    exact h hnested step hstep
  · rw [shown, if_neg hnested, List.flatMap_map, List.map_flatMap] at hk
    obtain ⟨step, -, hk⟩ := List.mem_flatMap.1 hk
    exact Level.propertiesOf_ne hk

end Path

namespace Context

/-- What an instance is told about its partition. Level names may stand beside `name` and `id`;
a level that takes one of these names for itself takes its place. -/
structure Told (c : Context) (ℓ : Leaf) (a : Agent) : Prop where
  levels : ℓ.path.map Step.level = c.declaration.levels
  constraints (f : HeldFilter) : a.addendum.constraintsFor f = ℓ.path.flatMap fun step =>
    (List.replicate (a.statement.filters.count f) (step.level.narrowing f step.key)).flatten
  filters : ∀ f ∈ a.addendum.keys, f ∈ a.statement.filters
  type : a.request.builtin.type = "ContextProperties_" ++ c.declaration.name
  data : a.request.builtin.data = OrderedMap.ofPairs
    (("name", .str c.declaration.name) :: ("id", toValue ℓ.partition) :: ℓ.path.shown)
  entries :
    (1 < c.depth → ∀ l ∈ c.declaration.levels, l.name ≠ "name" ∧ l.name ≠ "id") →
      a.request.builtin.data.entries =
        ("name", .str c.declaration.name) :: ("id", toValue ℓ.partition) :: ℓ.path.shown

variable {c : Context}

theorem told_of_path (h : Reachable (fun _ => True) c) {ℓ : Leaf} (hℓ : ℓ ∈ c.leaves) {a : Agent}
    (ha : a ∈ ℓ.running.agents) : c.Told ℓ a := by
  have hsound : c.Sound False := h.sound False.elim
  have hlevels := hsound.levels_eq hℓ
  obtain ⟨recovering, hrequest⟩ := (hsound.leaves ℓ hℓ).requests a ha
  have haddendum : a.addendum = ℓ.path.addendum a.statement :=
    congrArg StartRequest.addendum hrequest
  have hbuiltin := (congrArg StartRequest.builtin hrequest).trans (Path.builtin_eq hlevels)
  have hdata := congrArg Event.data hbuiltin
  have hnames : (ℓ.path.map fun step => step.level.name).Nodup := by
    have hdistinct : (c.declaration.levels.map Level.name).Nodup := c.declaration.distinct
    rwa [← hlevels, List.map_map] at hdistinct
  refine ⟨hlevels, fun f => ?_, fun f hf => ?_, congrArg Event.type hbuiltin, hdata, fun hne => ?_⟩
  · rw [haddendum, Path.constraintsFor_addendum]
  · rw [haddendum] at hf
    exact Path.filter_of_mem_addendum hf
  · have hshown : ∀ k ∈ ℓ.path.shown.map Prod.fst, k ≠ "name" ∧ k ≠ "id" := by
      intro k hk
      refine Path.shown_ne (fun hnested step hstep => hne ?_ _ ?_) hk
      · rwa [depth, Declaration.depth, ← hlevels, List.length_map]
      · rw [← hlevels]
        exact List.mem_map_of_mem hstep
    rw [hdata]
    refine OrderedMap.entries_ofPairs (List.nodup_cons.2 ⟨fun hmem => ?_,
      List.nodup_cons.2 ⟨fun hmem => (hshown _ hmem).2 rfl, Path.nodup_shown hnames⟩⟩)
    rcases List.mem_cons.1 hmem with hid | hmem
    · exact absurd hid (by decide : "name" ≠ "id")
    · exact (hshown _ hmem).1 rfl

def lengths : Declaration :=
  { name := "lengths"
    outer := .keyed { name := "user", items := [⟨"Page", ["user"]⟩] }
    inner := [.category
      { name := "length", eventType := "Page"
        items := [⟨"long", [⟨"length", .range (.int 100) (.int 200)⟩]⟩] }]
    sound := by decide
    distinct := by decide }

def pages : HeldFilter := ⟨0, { eventType := "Page" }⟩

def late : Statement := ⟨⟨2⟩, "late", [pages, pages, ⟨1, { eventType := "Order" }⟩]⟩

def joined : Context :=
  let attached := (perform .collecting (.attach seen) (Context.new lengths)).2
  let paged := (perform .collecting (.process page) attached).2
  (perform .collecting (.attach late) paged).2

theorem reachable_joined : Reachable (fun _ => True) joined :=
  .step _ _ (.step _ _ (.step _ _ (.new ..) trivial) trivial) trivial

theorem told_of_path_joined :
    (∀ ℓ ∈ joined.leaves, ∀ a ∈ ℓ.running.agents, joined.Told ℓ a) ∧
      joined.leaves.map (fun ℓ => ℓ.running.agents.map fun a => a.statement.name) =
        [["seen", "late"]] ∧
      joined.leaves.flatMap (fun ℓ => ℓ.path.shown) =
        [("user", .ofProps (.ofPairs [("key1", .int 1)])),
          ("length", .ofProps (.ofPairs [("label", .str "long")]))] ∧
      ∀ ℓ ∈ joined.leaves, ∀ a ∈ ℓ.running.agents, a.statement.name = "late" →
        a.addendum.constraintsFor pages =
          [.equal "user" (.int 1), .equal "user" (.int 1),
            ⟨"length", .range (.int 100) (.int 200)⟩, ⟨"length", .range (.int 100) (.int 200)⟩] :=
  ⟨fun _ hℓ _ ha => told_of_path reachable_joined hℓ ha, by decide +kernel, by decide +kernel,
    by decide +kernel⟩

end Context

end EventContexts
