import EventContexts.Context.Lookup
import EventContexts.Proofs.Grouping
/-!
Stacks of selectors, read along the way to a partition: each selector of a stack looks at one step
of the way, and a stack chooses the partitions of which it accepts every step.
-/

namespace EventContexts

/-- What a selector sees of one step of a way: the key, and the identifier of the child, which is
a path above the last level and a partition there. -/
abbrev Mark := Key × UInt32

def Level.takes : Level → Selector → Bool
  | _, .all | _, .byId _ | _, .filtered _ => true
  | .keyed _, .segmented _ | .category _, .category _ | .hash _, .hash _ => true
  | _, _ => false

namespace Selector

variable {s : Selector} {id : UInt32}

def Accepts (s : Selector) (m : Mark) : Prop :=
  match s with
  | .all => True
  | .byId ids => m.2 ∈ ids.toList
  | .filtered accepts => accepts m.1 m.2 = true
  | s => m.1 ∈ s.keys

def Follow (stack : List Selector) (way : List Mark) : Prop := List.Forall₂ Accepts stack way

/-- An answer that is a refusal of a selector, or consists of certain identifiers. -/
structure Answers (refused : Prop) (chosen : UInt32 → Prop) (r : Except Error (List UInt32)) :
    Prop where
  refuses : refused → ∃ found expected, r = .error (.wrongSelector found expected)
  chooses : ¬ refused → ∃ ids, r = .ok ids ∧ ∀ id, id ∈ ids ↔ chosen id

namespace Answers

variable {refused refused' : Prop} {chosen chosen' : UInt32 → Prop}
  {r r' : Except Error (List UInt32)}

theorem congr (h : Answers refused chosen r) (hrefused : refused ↔ refused')
    (hchosen : ¬ refused → ∀ id, chosen id ↔ chosen' id) : Answers refused' chosen' r where
  refuses hr := h.refuses (hrefused.2 hr)
  chooses hr := by
    have hok := fun h' => hr (hrefused.1 h')
    obtain ⟨ids, rfl, hids⟩ := h.chooses hok
    exact ⟨ids, rfl, fun id => (hids id).trans (hchosen hok id)⟩

theorem error_iff (h : Answers refused chosen r) :
    (∃ found expected, r = .error (.wrongSelector found expected)) ↔ refused := by
  refine ⟨fun ⟨found, expected, herror⟩ => ?_, h.refuses⟩
  by_contra hr
  obtain ⟨ids, hok, -⟩ := h.chooses hr
  rw [herror] at hok
  cases hok

theorem refuse {expected : List String} (h : refused) :
    Answers refused chosen (s.refuse expected) :=
  ⟨fun _ => ⟨_, _, rfl⟩, fun hr => absurd h hr⟩

theorem ok {ids : List UInt32} (hr : ¬ refused) (h : ∀ id, id ∈ ids ↔ chosen id) :
    Answers refused chosen (.ok ids) :=
  ⟨fun h' => absurd h' hr, fun _ => ⟨ids, rfl, h⟩⟩

theorem append : Answers refused chosen r → Answers refused' chosen' r' →
    Answers (refused ∨ refused') (fun id => chosen id ∨ chosen' id)
      (match r with
        | .error e => .error e
        | .ok ids =>
            match r' with
            | .error e => .error e
            | .ok more => .ok (ids ++ more)) := by
  intro h h'
  by_cases hr : refused
  · obtain ⟨found, expected, rfl⟩ := h.refuses hr
    exact ⟨fun _ => ⟨_, _, rfl⟩, fun hn => absurd (.inl hr) hn⟩
  · obtain ⟨ids, rfl, hids⟩ := h.chooses hr
    by_cases hr' : refused'
    · obtain ⟨found, expected, rfl⟩ := h'.refuses hr'
      exact ⟨fun _ => ⟨_, _, rfl⟩, fun hn => absurd (.inr hr') hn⟩
    · obtain ⟨more, rfl, hmore⟩ := h'.chooses hr'
      refine ok (fun h => h.elim hr hr') fun id => ?_
      rw [List.mem_append, hids, hmore]

theorem filter {test : UInt32 → Bool} (htest : ∀ id, chosen id → test id = true) :
    Answers refused chosen r → Answers refused chosen
      (match r with
        | .ok ids => .ok (ids.filter test)
        | .error e => .error e) := by
  intro h
  by_cases hr : refused
  · obtain ⟨found, expected, rfl⟩ := h.refuses hr
    exact ⟨fun _ => ⟨_, _, rfl⟩, fun hn => absurd hr hn⟩
  · obtain ⟨ids, rfl, hids⟩ := h.chooses hr
    refine ok hr fun id => ?_
    rw [List.mem_filter, hids]
    exact ⟨And.left, fun hid => ⟨hid, htest id hid⟩⟩

end Answers

section controller

variable {c : Controller}

theorem answers_listed (hselect : c.select s = if some s.kindName = c.scheme.ownSelector then
      .ok (s.keys.filterMap fun k => (c.children.find? k).map Handle.id)
    else s.refuse (["all", "by_id", "filtered"] ++ c.scheme.ownSelector.toList))
    (htakes : c.level.takes s = true ↔ some s.kindName = c.scheme.ownSelector)
    (haccepts : ∀ m, s.Accepts m ↔ m.1 ∈ s.keys) :
    Answers (c.level.takes s = false)
      (fun id => ∃ e ∈ c.children.entries, s.Accepts (e.1, e.2.id) ∧ e.2.id = id) (c.select s) := by
  rw [hselect]
  split
  · next hown =>
      have htaken : ¬ c.level.takes s = false := by
        rw [htakes.2 hown]
        exact Bool.noConfusion
      refine .ok htaken fun id => ?_
      simp only [List.mem_filterMap, Option.map_eq_some_iff, OrderedMap.find?_eq_some, haccepts]
      constructor
      · rintro ⟨k, hk, h, hmem, hid⟩
        exact ⟨(k, h), hmem, hk, hid⟩
      · rintro ⟨⟨k, h⟩, hmem, hk, hid⟩
        exact ⟨k, hk, h, hmem, hid⟩
  · next hown => exact .refuse (Bool.eq_false_iff.2 (hown ∘ htakes.1))

theorem answers_select (s : Selector) (c : Controller) : Answers (c.level.takes s = false)
    (fun id => ∃ e ∈ c.children.entries, s.Accepts (e.1, e.2.id) ∧ e.2.id = id) (c.select s) := by
  have htakes (hgeneral : s.kindName ∉ ["all", "by_id", "filtered"]) :
      c.level.takes s = true ↔ some s.kindName = c.scheme.ownSelector := by
    rw [Controller.level]
    cases s <;> cases c.scheme <;>
      simp [Scheme.level, Level.takes, Scheme.ownSelector, kindName] at hgeneral ⊢
  cases s with
  | all => exact .ok Bool.noConfusion fun id => by simp [Accepts, OrderedMap.values]
  | byId ids =>
      refine .ok Bool.noConfusion fun id => ?_
      rw [List.mem_filter, OrderedMap.values, List.map_map, List.mem_map, Table.contains_iff]
      constructor
      · rintro ⟨⟨e, he, rfl⟩, hmem⟩
        exact ⟨e, he, hmem, rfl⟩
      · rintro ⟨e, he, hmem, rfl⟩
        exact ⟨⟨e, he, rfl⟩, hmem⟩
  | filtered accepts =>
      refine .ok Bool.noConfusion fun id => ?_
      simp [Accepts, and_assoc]
  | nested alternatives => exact answers_listed rfl (htakes (by simp [kindName])) fun _ => Iff.rfl
  | category labels => exact answers_listed rfl (htakes (by simp [kindName])) fun _ => Iff.rfl
  | hash buckets => exact answers_listed rfl (htakes (by simp [kindName])) fun _ => Iff.rfl
  | segmented keys => exact answers_listed rfl (htakes (by simp [kindName])) fun _ => Iff.rfl

end controller

end Selector

namespace Node

open Selector

def controllerWays : (below : List Level) → (depth : Nat) → Node (Children below) →
    List (List Mark × Controller)
  | _, 0, node => [([], node.controller)]
  | [], _ + 1, _ => []
  | _ :: below, depth + 1, node =>
      let branches : Table (Branch (Children below)) := node.children
      branches.entries.flatMap fun (k, b) =>
        (controllerWays below depth b.node).map fun w => ((b.key, k) :: w.1, w.2)

def leafWays : (below : List Level) → Path → Node (Children below) → List (List Mark × Leaf)
  | [], path, node =>
      let partitions : Table Running := node.children
      partitions.entries.map fun (partition, r) =>
        ([(r.key, partition)],
          ⟨path ++ [node.step r.key r.properties], node.controller.id, partition, r⟩)
  | _ :: below, path, node =>
      let branches : Table (Branch (Children below)) := node.children
      branches.entries.flatMap fun (k, b) =>
        (leafWays below (path ++ [node.step b.key b.properties]) b.node).map fun w =>
          ((b.key, k) :: w.1, w.2)

variable {below : List Level} {l : Level} {path : Path} {post : Post} {Q : Leaf → Prop}
  {s : Selector} {stack : List Selector} {depth : Nat}

theorem leaves_leafWays (node : Node (Children below)) :
    (node.leafWays below path).map Prod.snd = node.leaves below path := by
  induction below generalizing path with
  | nil =>
      rw [leafWays, leaves, List.map_map]
      rfl
  | cons l below ih =>
      rw [leafWays, leaves, List.map_flatMap]
      refine List.flatMap_congr fun e _ => ?_
      rw [List.map_map]
      exact ih e.2.node

theorem way_of_mem_leafWays {node : Node (Children below)} {w : List Mark × Leaf}
    (hw : w ∈ node.leafWays below path) : w.2.path.keys = path.keys ++ w.1.map Prod.fst ∧
      w.1.getLast? = some (w.2.running.key, w.2.partition) := by
  induction below generalizing path w with
  | nil =>
      obtain ⟨e, -, rfl⟩ := List.mem_map.1 hw
      exact ⟨List.map_append, rfl⟩
  | cons l below ih =>
      obtain ⟨e, -, hw⟩ := List.mem_flatMap.1 hw
      obtain ⟨v, hv, rfl⟩ := List.mem_map.1 hw
      obtain ⟨hkeys, hlast⟩ := ih hv
      constructor
      · rw [hkeys, Path.keys, List.map_append, List.append_assoc]
        rfl
      · rw [List.getLast?_cons, hlast]
        rfl

theorem answers_children {node : Node (Children below)}
    (h : node.Sound Q True below path post) : Answers (node.controller.level.takes s = false)
      (fun id => ∃ e ∈ node.children.table.entries, s.Accepts (e.2.key, e.1) ∧ e.1 = id)
      (node.controller.select s) := by
  obtain ⟨rfl, -, -, hfamily⟩ := h
  refine (answers_select s node.controller).congr Iff.rfl fun _ id => ?_
  constructor
  · rintro ⟨p, hp, haccepts, hid⟩
    obtain ⟨e, he, rfl⟩ := List.mem_map.1 ((hfamily.remembered trivial).mem_iff.1 hp)
    rw [Child.id_handle] at haccepts hid
    exact ⟨e, he, haccepts, hid⟩
  · rintro ⟨e, he, haccepts, hid⟩
    refine ⟨(e.2.key, e.2.handle node.controller.id e.1),
      (hfamily.remembered trivial).mem_iff.2 (List.mem_map_of_mem he), ?_⟩
    rw [Child.id_handle]
    exact ⟨haccepts, hid⟩

/-- Whether a selector of a stack meets a controller, reached by the selectors before it, that
does not understand it. -/
def Refuses (below : List Level) (node : Node (Children below)) (stack : List Selector) : Prop :=
  ∃ i s, stack[i]? = some s ∧ ∃ w ∈ node.controllerWays below i,
    Follow (stack.take i) w.1 ∧ w.2.level.takes s = false

def Chooses (below : List Level) (path : Path) (node : Node (Children below))
    (stack : List Selector) (p : UInt32) : Prop :=
  ∃ w ∈ node.leafWays below path, Follow stack w.1 ∧ w.2.partition = p

theorem refuses_cons_of_takes {node : Node (Children (l :: below))}
    (htakes : ¬ node.controller.level.takes s = false) :
    node.Refuses (l :: below) (s :: stack) ↔ ∃ e ∈ node.children.table.entries,
      s.Accepts (e.2.key, e.1) ∧ Node.Refuses below (Branch.node e.2) stack := by
  constructor
  · rintro ⟨i, s', hs', w, hw, hfollow, htakes'⟩
    cases i with
    | zero =>
        obtain rfl := List.mem_singleton.1 hw
        obtain rfl := Option.some.inj hs'
        exact absurd htakes' htakes
    | succ i =>
        obtain ⟨e, he, hw⟩ := List.mem_flatMap.1 hw
        obtain ⟨v, hv, rfl⟩ := List.mem_map.1 hw
        obtain ⟨haccepts, hfollow⟩ := List.forall₂_cons.1 hfollow
        exact ⟨e, he, haccepts, i, s', hs', v, hv, hfollow, htakes'⟩
  · rintro ⟨e, he, haccepts, i, s', hs', v, hv, hfollow, htakes'⟩
    have hfollow' : List.Forall₂ Selector.Accepts (s :: List.take i stack)
        ((Branch.key e.2, e.1) :: v.1) := .cons haccepts hfollow
    exact ⟨i + 1, s', hs', ((Branch.key e.2, e.1) :: v.1, v.2),
      List.mem_flatMap.2 ⟨e, he, List.mem_map_of_mem hv⟩, hfollow', htakes'⟩

theorem chooses_cons {node : Node (Children (l :: below))} {p : UInt32} :
    node.Chooses (l :: below) path (s :: stack) p ↔ ∃ e ∈ node.children.table.entries,
      s.Accepts (e.2.key, e.1) ∧ Node.Chooses below
        (path ++ [node.step (Branch.key e.2) (Branch.properties e.2)]) (Branch.node e.2) stack
        p := by
  constructor
  · rintro ⟨w, hw, hfollow, hp⟩
    obtain ⟨e, he, hw⟩ := List.mem_flatMap.1 hw
    obtain ⟨v, hv, rfl⟩ := List.mem_map.1 hw
    obtain ⟨haccepts, hfollow⟩ := List.forall₂_cons.1 hfollow
    exact ⟨e, he, haccepts, v, hv, hfollow, hp⟩
  · rintro ⟨e, he, haccepts, v, hv, hfollow, hp⟩
    exact ⟨_, List.mem_flatMap.2 ⟨e, he, List.mem_map_of_mem hv⟩, .cons haccepts hfollow, hp⟩

theorem answers_joinChosen {f : UInt32 → Except Error (List UInt32)} {refused : UInt32 → Prop}
    {chosen : UInt32 → UInt32 → Prop} {ids : List UInt32}
    (h : ∀ id ∈ ids, Answers (refused id) (chosen id) (f id)) :
    Answers (∃ id ∈ ids, refused id) (fun p => ∃ id ∈ ids, chosen id p) (joinChosen f ids) := by
  induction ids with
  | nil => exact .ok (by simp) (by simp)
  | cons id rest ih =>
      have hrest := ih fun id hid => h id (List.mem_cons_of_mem _ hid)
      exact ((h id (List.mem_cons_self ..)).append hrest).congr (List.exists_mem_cons_iff ..).symm
        fun _ p => (List.exists_mem_cons_iff (chosen · p) id rest).symm

def childrenBy (s : Selector) (node : Node (Children below)) : Except Error (List UInt32) :=
  match s with
  | .all => .ok node.children.table.keys
  | s => node.controller.select s

theorem answers_childrenBy {node : Node (Children below)} (h : node.Sound Q True below path post) :
    Answers (node.controller.level.takes s = false)
      (fun id => ∃ e ∈ node.children.table.entries, s.Accepts (e.2.key, e.1) ∧ e.1 = id)
      (node.childrenBy s) := by
  cases s with
  | all =>
      refine .ok Bool.noConfusion fun id => ?_
      simp only [Accepts, true_and]
      exact List.mem_map
  | _ => exact answers_children h

theorem answers_selectPartitions {node : Node (Children [])}
    (h : node.Sound Q True [] path post) : Answers (node.controller.level.takes s = false)
      (fun id => ∃ e ∈ node.children.table.entries, s.Accepts (e.2.key, e.1) ∧ e.1 = id)
      (node.selectPartitions s) := by
  have htable : ∀ id, (∃ e ∈ node.children.table.entries, s.Accepts (e.2.key, e.1) ∧ e.1 = id) →
      node.children.table.contains id = true := by
    rintro id ⟨e, he, -, rfl⟩
    exact Table.contains_iff.2 (List.mem_map_of_mem he)
  cases s with
  | all => exact answers_childrenBy h
  | _ => exact (answers_children h).filter htable

theorem refuses_singleton {node : Node (Children [])} :
    node.Refuses [] [s] ↔ node.controller.level.takes s = false := by
  constructor
  · rintro ⟨i, s', hs', w, hw, -, htakes⟩
    cases i with
    | zero =>
        obtain rfl := List.mem_singleton.1 hw
        obtain rfl := Option.some.inj hs'
        exact htakes
    | succ i => cases hw
  · exact fun htakes => ⟨0, s, rfl, _, List.mem_singleton_self _, .nil, htakes⟩

theorem chooses_singleton {node : Node (Children [])} {p : UInt32} :
    node.Chooses [] path [s] p ↔
      ∃ e ∈ node.children.table.entries, s.Accepts (e.2.key, e.1) ∧ e.1 = p := by
  constructor
  · rintro ⟨w, hw, hfollow, hp⟩
    obtain ⟨e, he, rfl⟩ := List.mem_map.1 hw
    exact ⟨e, he, (List.forall₂_cons.1 hfollow).1, hp⟩
  · rintro ⟨e, he, haccepts, hp⟩
    exact ⟨_, List.mem_map_of_mem he, .cons haccepts .nil, hp⟩

theorem refuses_nested {node : Node (Children below)} {alternatives : List (List Selector)} :
    node.Refuses below (.nested alternatives :: stack) := by
  refine ⟨0, _, rfl, ([], node.controller), ?_, .nil, ?_⟩
  · cases below <;> exact List.mem_singleton_self _
  · dsimp only
    cases node.controller.level <;> rfl

theorem selectStack_cons {node : Node (Children (l :: below))}
    (hs : ∀ alternatives, s ≠ .nested alternatives) :
    node.selectStack (l :: below) (s :: stack) = match node.childrenBy s with
      | .error e => .error e
      | .ok paths =>
          let branches : Table (Branch (Children below)) := node.children
          joinChosen (fun path =>
            match branches.get? path with
            | some b => selectStack below b.node stack
            | none => .ok []) paths := by
  cases s with
  | nested alternatives => exact absurd rfl (hs alternatives)
  | _ => rfl

theorem answers_selectStack {node : Node (Children below)} (h : node.Sound Q True below path post)
    (hlength : stack.length = below.length + 1) :
    Answers (node.Refuses below stack) (node.Chooses below path stack)
      (node.selectStack below stack) := by
  induction below generalizing path post stack with
  | nil =>
      obtain ⟨s, rfl⟩ := List.length_eq_one_iff.1 hlength
      have hpartitions : Answers (node.Refuses [] [s]) (node.Chooses [] path [s])
          (node.selectPartitions s) :=
        (answers_selectPartitions h).congr refuses_singleton.symm fun _ _ => chooses_singleton.symm
      cases s with
      | nested alternatives => exact .refuse refuses_nested
      | _ => exact hpartitions
  | cons l below ih =>
      obtain ⟨s, stack, rfl⟩ := List.exists_cons_of_length_eq_add_one hlength
      by_cases hs : ∃ alternatives, s = .nested alternatives
      · obtain ⟨alternatives, rfl⟩ := hs
        exact .refuse refuses_nested
      rw [selectStack_cons (not_exists.1 hs)]
      have hchildren := answers_childrenBy (s := s) h
      by_cases htakes : node.controller.level.takes s = false
      · obtain ⟨found, expected, hrefused⟩ := hchildren.refuses htakes
        rw [hrefused]
        have hhere : node.Refuses (l :: below) (s :: stack) :=
          ⟨0, s, rfl, _, List.mem_singleton_self _, .nil, htakes⟩
        exact ⟨fun _ => ⟨_, _, rfl⟩, fun hn => absurd hhere hn⟩
      · obtain ⟨paths, hpaths, hmem⟩ := hchildren.chooses htakes
        rw [hpaths]
        let branches : Table (Branch (Children below)) := node.children
        let refused (id : UInt32) : Prop :=
          ∃ b, branches.get? id = some b ∧ b.node.Refuses below stack
        let chosen (id p : UInt32) : Prop := ∃ b, branches.get? id = some b ∧
          b.node.Chooses below (path ++ [node.step b.key b.properties]) stack p
        have hjoined : Answers (∃ id ∈ paths, refused id) (fun p => ∃ id ∈ paths, chosen id p)
            (joinChosen (fun path => match branches.get? path with
              | some b => selectStack below b.node stack
              | none => .ok []) paths) := by
          refine answers_joinChosen fun id hid => ?_
          obtain ⟨⟨k, b⟩, he, -, rfl⟩ := (hmem id).1 hid
          have hget : branches.get? k = some b := Table.get?_eq_some.2 he
          have hbranch := Child.sound_branch.1 (h.tended.holds.each (k, b) he)
          obtain ⟨rfl, -⟩ := h
          have hsome (P : Branch (Children below) → Prop) :
              P b ↔ ∃ b', branches.get? k = some b' ∧ P b' := by
            constructor
            · exact fun hP => ⟨b, hget, hP⟩
            · rintro ⟨b', hget', hP⟩
              rwa [Option.some.inj (hget.symm.trans hget')]
          simp only [hget]
          exact (ih hbranch (Nat.succ.inj hlength)).congr
            (hsome fun b => b.node.Refuses below stack) fun _ p =>
              hsome fun b => b.node.Chooses below (path ++ [node.step b.key b.properties]) stack p
        have hpaths_iff (P : Branch (Children below) → Prop) :
            (∃ id ∈ paths, ∃ b, branches.get? id = some b ∧ P b) ↔
              ∃ e ∈ branches.entries, s.Accepts (e.2.key, e.1) ∧ P e.2 := by
          constructor
          · rintro ⟨id, hid, b, hget, hP⟩
            obtain ⟨e, he, haccepts, rfl⟩ := (hmem id).1 hid
            have hb : b = e.2 := Table.eq_of_mem (Table.get?_eq_some.1 hget) he
            exact ⟨e, he, haccepts, hb ▸ hP⟩
          · rintro ⟨e, he, haccepts, hP⟩
            exact ⟨e.1, (hmem e.1).2 ⟨e, he, haccepts, rfl⟩, e.2, Table.get?_eq_some.2 he, hP⟩
        refine hjoined.congr ?_ fun _ p => ?_
        · exact (hpaths_iff _).trans (refuses_cons_of_takes htakes).symm
        · exact (hpaths_iff _).trans chooses_cons.symm

end Node

namespace IdSet

variable {s t : IdSet} {ids : List UInt32} {id : UInt32}

theorem mem_addAll : id ∈ (s.addAll ids).toList ↔ id ∈ s.toList ∨ id ∈ ids := by
  induction ids generalizing s with
  | nil => simp [addAll]
  | cons x rest ih =>
      have hrest : id ∈ (s.addAll (x :: rest)).toList ↔ id ∈ (s.add x).toList ∨ id ∈ rest := ih
      have hadd : id ∈ (s.add x).toList ↔ id = x ∨ id ∈ s.toList := Table.mem_keys_insert
      rw [hrest, hadd, List.mem_cons]
      tauto

theorem mem_ofList : id ∈ (ofList ids).toList ↔ id ∈ ids := by
  have hempty : id ∉ toList Table.empty := List.not_mem_nil
  rw [ofList, mem_addAll, or_iff_right hempty]

theorem ext (h : ∀ id, id ∈ s.toList ↔ id ∈ t.toList) : s = t := by
  have hkeys : s.keys = t.keys := List.eq_of_perm_of_ascending s.ascending t.ascending
    ((List.perm_ext_iff_of_nodup s.nodup_keys t.nodup_keys).2 h)
  have hfst : Function.Injective (Prod.fst : UInt32 × Unit → UInt32) :=
    fun a b hab => Prod.ext hab rfl
  exact Table.ext_entries (hfst.list_map hkeys)

end IdSet

namespace Context

open Selector

variable {c : Context} {root : Node (Children c.declaration.inner)} {stack : List Selector}
  {choices : List (List Selector)} {p : UInt32} {depth : Nat} {strict : Prop}

def leafWays (c : Context) : List (List Mark × Leaf) :=
  match c.root with
  | some root => root.leafWays _ []
  | none => []

def controllerWays (c : Context) (depth : Nat) : List (List Mark × Controller) :=
  match c.root with
  | some root => root.controllerWays _ depth
  | none => []

/-- Whether a stack has not one selector per level, or one of its selectors meets a controller,
reached by the selectors before it, that does not understand it. -/
def Refuses (c : Context) (stack : List Selector) : Prop :=
  stack.length ≠ c.depth ∨ ∃ i s, stack[i]? = some s ∧ ∃ w ∈ c.controllerWays i,
    Follow (stack.take i) w.1 ∧ w.2.level.takes s = false

def Chooses (c : Context) (stack : List Selector) (p : UInt32) : Prop :=
  ∃ w ∈ c.leafWays, Follow stack w.1 ∧ w.2.partition = p

theorem leafWays_of_root (hroot : c.root = some root) :
    c.leafWays = root.leafWays c.declaration.inner [] := by
  simp only [leafWays, hroot]

theorem controllerWays_of_root (hroot : c.root = some root) :
    c.controllerWays depth = root.controllerWays c.declaration.inner depth := by
  simp only [controllerWays, hroot]

theorem refuses_iff_of_root (hroot : c.root = some root) (hlength : stack.length = c.depth) :
    c.Refuses stack ↔ root.Refuses c.declaration.inner stack := by
  simp only [Refuses, Node.Refuses, controllerWays_of_root hroot, hlength, ne_eq, not_true,
    false_or]

theorem chooses_iff_of_root (hroot : c.root = some root) :
    c.Chooses stack p ↔ root.Chooses c.declaration.inner [] stack p := by
  rw [Chooses, Node.Chooses, leafWays_of_root hroot]

theorem leaves_leafWays (c : Context) : c.leafWays.map Prod.snd = c.leaves := by
  cases hroot : c.root with
  | none => simp only [leafWays, leaves, hroot, List.map_nil]
  | some root => rw [leafWays_of_root hroot, leaves_of_root hroot, Node.leaves_leafWays]

theorem way_of_mem_leafWays {w : List Mark × Leaf} (hw : w ∈ c.leafWays) :
    w.2.path.keys = w.1.map Prod.fst ∧
      w.1.getLast? = some (w.2.running.key, w.2.partition) := by
  rw [leafWays] at hw
  split at hw
  · exact Node.way_of_mem_leafWays hw
  · cases hw

theorem answers_selectStacks (hroot : c.root = some root) {Q : Leaf → Prop}
    {post : Post} (h : root.Sound Q True c.declaration.inner [] post) :
    Answers (∃ stack ∈ choices, c.Refuses stack) (fun p => ∃ stack ∈ choices, c.Chooses stack p)
      (c.selectStacks root choices) := by
  induction choices with
  | nil => exact .ok (by simp) (by simp)
  | cons stack rest ih =>
      rw [selectStacks]
      split
      · next hlength =>
          refine ⟨fun _ => ⟨_, _, rfl⟩, fun hn => absurd ?_ hn⟩
          exact ⟨stack, List.mem_cons_self .., .inl hlength⟩
      · next hlength =>
          have hlength : stack.length = c.depth := not_not.1 hlength
          refine ((Node.answers_selectStack h hlength).append ih).congr ?_ fun _ p => ?_
          · rw [List.exists_mem_cons_iff, refuses_iff_of_root hroot hlength]
          · rw [List.exists_mem_cons_iff, chooses_iff_of_root hroot]

theorem follow_all (way : List Mark) : Follow (List.replicate way.length .all) way := by
  induction way with
  | nil => exact .nil
  | cons m way ih => exact .cons trivial ih

theorem not_refuses_all : ¬ c.Refuses (List.replicate c.depth .all) := by
  rintro (hlength | ⟨i, s, hs, w, -, -, htakes⟩)
  · exact hlength List.length_replicate
  · obtain rfl := List.eq_of_mem_replicate (List.mem_of_getElem? hs)
    cases htakes

theorem Sound.chooses_all (h : c.Sound strict) :
    c.Chooses (List.replicate c.depth .all) p ↔ p ∈ c.allocatedIds := by
  rw [h.allocated.mem_iff, ← leaves_leafWays, List.map_map, List.mem_map]
  constructor
  · exact fun ⟨w, hw, _, hp⟩ => ⟨w, hw, hp⟩
  · rintro ⟨w, hw, hp⟩
    have hℓ : w.2 ∈ c.leaves := by
      rw [← leaves_leafWays]
      exact List.mem_map_of_mem hw
    have hlength : w.1.length = c.depth := by
      have hkeys := congrArg List.length (way_of_mem_leafWays hw).1
      have hlevels := congrArg List.length (h.levels_eq hℓ)
      rw [Path.keys, List.length_map, List.length_map] at hkeys
      rw [List.length_map] at hlevels
      exact hkeys.symm.trans hlevels
    exact ⟨w, hw, hlength ▸ follow_all w.1, hp⟩

/-- A nested selector means what its stacks say about the ways to the partitions, and all
partitions are the allocated ones. -/
theorem nested_selection (h : Reachable Operation.Regular c) :
    (c.isActive = true → ∀ choices,
      ((∃ found expected, c.select (.nested choices) = .error (.wrongSelector found expected)) ↔
        ∃ stack ∈ choices, c.Refuses stack) ∧
      ((¬ ∃ stack ∈ choices, c.Refuses stack) → ∃ ids, c.select (.nested choices) = .ok ids ∧
        ∀ p, p ∈ ids.toList ↔ ∃ stack ∈ choices, c.Chooses stack p)) ∧
    ∃ ids, c.select (.nested [List.replicate c.depth .all]) = .ok ids ∧
      c.select .all = .ok ids ∧ ids.toList = c.allocatedIds := by
  have hsound : c.Sound True := h.sound fun _ _ hop => hop
  cases hroot : c.root with
  | none =>
      have hids : c.allocatedIds = [] := List.perm_nil.1 (hsound.idle hroot).partitions
      have hempty : c.books.ids.inUse = Table.empty := IdSet.ext fun id => by
        show id ∈ c.allocatedIds ↔ id ∈ []
        rw [hids]
      refine ⟨fun hactive => ?_, Table.empty, ?_, congrArg Except.ok hempty, hids.symm⟩
      · rw [isActive, hroot] at hactive
        cases hactive
      · simp only [select, hroot]
  | some root =>
      obtain ⟨id, hs⟩ := hsound.tree root hroot
      have hselect (choices) : c.select (.nested choices) =
          (c.selectStacks root choices).map IdSet.ofList := by
        simp only [select, hroot]
      have hstacks (choices) : Answers (∃ stack ∈ choices, c.Refuses stack)
          (fun p => ∃ stack ∈ choices, c.Chooses stack p) (c.selectStacks root choices) :=
        answers_selectStacks hroot hs.manned
      have hchooses (choices) (hok : ¬ ∃ stack ∈ choices, c.Refuses stack) :
          ∃ ids, c.select (.nested choices) = .ok ids ∧
            ∀ p, p ∈ ids.toList ↔ ∃ stack ∈ choices, c.Chooses stack p := by
        obtain ⟨ids, hids, hmem⟩ := (hstacks choices).chooses hok
        rw [hselect, hids]
        exact ⟨IdSet.ofList ids, rfl, fun p => IdSet.mem_ofList.trans (hmem p)⟩
      refine ⟨fun _ choices => ⟨?_, hchooses choices⟩, c.books.ids.inUse, ?_, rfl, rfl⟩
      · rw [← (hstacks choices).error_iff, hselect]
        cases c.selectStacks root choices with
        | ok ids => simp [Except.map]
        | error e => simp [Except.map]
      · obtain ⟨ids, hids, hmem⟩ := hchooses [List.replicate c.depth .all] (by
          simpa using not_refuses_all)
        have hall : ids = c.books.ids.inUse := IdSet.ext fun p => by
          rw [hmem]
          simp only [List.mem_singleton, exists_eq_left]
          exact hsound.chooses_all
        rw [hids, hall]

theorem nested_selection_visited :
    visited.isActive = true ∧
      (∃ stack ∈ [[.segmented [[.int 1]], .segmented [[.int 1]]]], visited.Refuses stack) ∧
      ∃ p, ∃ stack ∈ [[.segmented [[.int 2]], .segmented []],
          [.segmented [[.int 1]], .byId (.ofList [0])]], visited.Chooses stack p := by
  have hactive : visited.isActive = true := rfl
  have hselection := (nested_selection reachable_visited).1 hactive
  refine ⟨hactive, (hselection _).1.1 ⟨_, _, rfl⟩, 0, ?_⟩
  let choices : List (List Selector) :=
    [[.segmented [[.int 2]], .segmented []], [.segmented [[.int 1]], .byId (.ofList [0])]]
  have hok : visited.select (.nested choices) = .ok (.ofList [0]) := rfl
  have haccepted : ¬ ∃ stack ∈ choices, visited.Refuses stack := by
    intro h
    obtain ⟨found, expected, herror⟩ := (hselection choices).1.2 h
    rw [hok] at herror
    cases herror
  obtain ⟨ids, hids, hmem⟩ := (hselection choices).2 haccepted
  obtain rfl := Except.ok.inj (hok.symm.trans hids)
  exact (hmem 0).1 (by decide)

end Context

end EventContexts
