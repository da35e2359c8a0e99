import EventContexts.Proofs.Confinement
import EventContexts.Proofs.Twins
import Mathlib.Data.List.Flatten
/-!
Steps at the controllers of one level, told one after the other. Above that level the tree stays as
it is, and so does each controller of the level until it has its turn.
-/

namespace EventContexts

open Act

namespace Node

variable {R R' : (below : List Level) → Node (Children below) → Node (Children below) → Prop}
  {below deep : List Level} {depth : Nat} {node node' node'' : Node (Children below)}
  {id : ControllerId}

/-- `R` of the nodes at some depth, each with what has become of it, while the tree above them has
stayed the same. -/
def Layered (R : (below : List Level) → Node (Children below) → Node (Children below) → Prop) :
    (below : List Level) → (depth : Nat) → Node (Children below) → Node (Children below) → Prop
  | below, 0, node, node' => R below node node'
  | [], _ + 1, node, node' => node' = node
  | _ :: below, depth + 1, node, node' =>
      let branches : Table (Branch (Children below)) := node.children
      node'.controller = node.controller ∧ branches.Rel (fun b b' =>
        b'.key = b.key ∧ b'.properties = b.properties ∧ Layered R below depth b.node b'.node)
          node'.children

theorem layered_zero : Layered R below 0 node node' ↔ R below node node' := by
  cases below <;> rfl

theorem Layered.mono (h : Layered R below depth node node')
    (hR : ∀ below n n', n.controller.id ∈ (node.controllersAt _ depth).map Controller.id →
      R below n n' → R' below n n') : Layered R' below depth node node' := by
  induction below generalizing depth with
  | nil =>
      cases depth with
      | zero => exact hR [] node node' (List.mem_singleton_self _) h
      | succ depth => exact h
  | cons l below ih =>
      cases depth with
      | zero => exact hR (l :: below) node node' (List.mem_singleton_self _) h
      | succ depth =>
          refine ⟨h.1, Table.Rel.mono h.2 fun e he b' hb => ⟨hb.1, hb.2.1, ih hb.2.2 ?_⟩⟩
          intro below' n n' hid
          refine hR below' n n' ?_
          rw [controllersAt, List.map_flatMap]
          exact List.mem_flatMap.2 ⟨e, he, hid⟩

theorem Layered.trans (h : Layered R below depth node node')
    (h' : Layered R' below depth node' node'') : Layered
      (fun below n n'' => ∃ n', R below n n' ∧ R' below n' n'') below depth node node'' := by
  induction below generalizing depth with
  | nil =>
      cases depth with
      | zero => exact ⟨node', h, h'⟩
      | succ depth => exact h'.trans h
  | cons l below ih =>
      cases depth with
      | zero => exact ⟨node', h, h'⟩
      | succ depth =>
          refine ⟨h'.1.trans h.1, (Table.Rel.comp h.2 h'.2).mono ?_⟩
          rintro e - b'' ⟨b', hb, hb'⟩
          exact ⟨hb'.1.trans hb.1, hb'.2.1.trans hb.2.1, ih hb.2.2 hb'.2.2⟩

theorem Layered.ids (h : Layered R below depth node node')
    (hR : ∀ below n n', R below n n' → n'.controller.id = n.controller.id) :
    (node'.controllersAt below depth).map Controller.id =
      (node.controllersAt below depth).map Controller.id := by
  induction below generalizing depth with
  | nil =>
      cases depth with
      | zero => exact congrArg (fun id => [id]) (hR [] node node' h)
      | succ depth => rfl
  | cons l below ih =>
      cases depth with
      | zero => exact congrArg (fun id => [id]) (hR (l :: below) node node' h)
      | succ depth =>
          rw [controllersAt, controllersAt, List.map_flatMap, List.map_flatMap]
          exact Table.Rel.flatMap_eq h.2 fun k b b' hb => ih hb.2.2

/-- What has become of the nodes of some controllers, when every other node has stayed the same. -/
def Among (ids : List ControllerId)
    (R : (below : List Level) → Node (Children below) → Node (Children below) → Prop)
    (below : List Level) (n n' : Node (Children below)) : Prop :=
  if n.controller.id ∈ ids then R below n n' else n' = n

theorem Among.ids {ids : List ControllerId} {n n' : Node (Children below)}
    (h : Among ids R below n n') (hR : R below n n' → n'.controller.id = n.controller.id) :
    n'.controller.id = n.controller.id := by
  rw [Among] at h
  split at h
  · exact hR h
  · rw [h]

theorem Among.cons {rest : List ControllerId} {n m n' : Node (Children below)}
    (h : Among [id] R below n m) (h' : Among rest R below m n') (hnew : id ∉ rest)
    (hR : R below n m → m.controller.id = n.controller.id) : Among (id :: rest) R below n n' := by
  rw [Among, h.ids hR] at h'
  rw [Among] at h ⊢
  by_cases heq : n.controller.id = id
  · rw [if_neg (heq ▸ hnew)] at h'
    rw [if_pos (List.mem_singleton.2 heq)] at h
    rw [if_pos (heq ▸ List.mem_cons_self), h']
    exact h
  · rw [if_neg fun hmem => heq (List.mem_singleton.1 hmem)] at h
    simpa only [List.mem_cons, heq, false_or, h] using h'

theorem layered_self {ids : List ControllerId}
    (h : ∀ id ∈ ids, id ∉ (node.controllersAt below depth).map Controller.id) :
    Layered (Among ids R) below depth node node := by
  have hroot {below : List Level} {node : Node (Children below)}
      (hid : node.controller.id ∉ ids) : Among ids R below node node :=
    (if_neg hid).mpr rfl
  induction below generalizing depth with
  | nil =>
      cases depth with
      | zero => exact hroot fun hmem => h _ hmem (List.mem_singleton_self _)
      | succ depth => rfl
  | cons l below ih =>
      cases depth with
      | zero => exact hroot fun hmem => h _ hmem (List.mem_singleton_self _)
      | succ depth =>
          refine ⟨rfl, List.forall₂_same.2 fun e he => ⟨rfl, rfl, rfl, ih fun id hid hmem => ?_⟩⟩
          refine h id hid ?_
          rw [controllersAt, List.map_flatMap]
          exact List.mem_flatMap.2 ⟨e, he, hmem⟩

theorem controllersAt_sublist {parent : Option ControllerId} {place : UInt32} {since : Nat} :
    ((node.controllersAt below depth).map Controller.id).Sublist
      ((node.entries below parent place since).map Entry.id) := by
  have hroot {below : List Level} {node : Node (Children below)} {parent : Option ControllerId}
      {place : UInt32} {since : Nat} : [node.controller.id].Sublist
        ((node.entries below parent place since).map Entry.id) := by
    refine List.singleton_sublist.2 (List.mem_map.2 ⟨_, entry_mem_entries, id_entry⟩)
  induction below generalizing depth parent place since with
  | nil =>
      cases depth with
      | zero => exact hroot
      | succ depth => exact List.nil_sublist _
  | cons l below ih =>
      cases depth with
      | zero => exact hroot
      | succ depth =>
          rw [controllersAt, Node.entries, List.map_cons, List.map_flatMap, List.map_flatMap]
          exact (List.Sublist.flatMap_right _ fun e _ => ih).cons _

theorem ids_controllersAt (parent : Option ControllerId) (place : UInt32) (since : Nat) :
    id ∈ (node.controllersAt below depth).map Controller.id ↔
      ∃ x ∈ node.entries below parent place since, x.id = id ∧ x.depth = since + depth := by
  rw [List.mem_map]
  constructor
  · rintro ⟨x, hx, rfl⟩
    have hentry : ∃ y ∈ node.entries below parent place since,
        y.controller = x ∧ y.depth = since + depth := mem_controllersAt.1 hx
    obtain ⟨y, hy, rfl, hdepth⟩ := hentry
    exact ⟨y, hy, rfl, hdepth⟩
  · rintro ⟨x, hx, rfl, hdepth⟩
    exact ⟨x.controller, mem_controllersAt.2 ⟨x, hx, rfl, hdepth⟩, rfl⟩

/-- Where no two controllers share a number, a step at one of them is a step at the depth where it
stands. -/
theorem Graft.layered {n n' : Node (Children deep)} {way path : Path}
    (h : Graft n n' way below path node node') (parent : Option ControllerId) (place : UInt32)
    (since : Nat) (hnodup : ((node.entries below parent place since).map Entry.id).Nodup)
    (hid : n.controller.id ∈ (node.controllersAt below depth).map Controller.id)
    (hR : R deep n n') :
    Layered (Among [n.controller.id] R) below depth node node' := by
  induction h generalizing parent place since depth with
  | here =>
      obtain ⟨x, hx, hxid, hdepth⟩ :=
        (ids_controllersAt parent place since).1 hid
      have hsame := List.inj_on_of_nodup_map hnodup hx entry_mem_entries (hxid.trans id_entry.symm)
      rw [hsame, depth_entry] at hdepth
      obtain rfl : depth = 0 := by omega
      exact layered_zero.2 ((if_pos (List.mem_singleton_self _)).mpr hR)
  | @under l below path node k branch m hmem hgraft ih =>
      let branches : Table (Branch (Children below)) := node.children
      obtain ⟨hself, hunder, halone⟩ := hgraft.alone hmem hnodup
      cases depth with
      | zero => exact absurd (List.mem_singleton.1 hid) hself
      | succ depth =>
          -- the number occurs under one branch only
          have honly : ∀ e ∈ branches.entries,
              n.controller.id ∈ (e.2.node.controllersAt below depth).map Controller.id →
                e = (k, branch) :=
            fun e he hat => halone e he (controllersAt_sublist.subset hat)
          have hat : n.controller.id ∈
              (branch.node.controllersAt below depth).map Controller.id := by
            rw [controllersAt, List.map_flatMap] at hid
            obtain ⟨e, he, hat⟩ := List.mem_flatMap.1 hid
            rwa [honly e he hat] at hat
          have hbranch : Layered (Among [n.controller.id] R) below depth branch.node m :=
            ih (some node.controller.id) k (since + 1) hunder hat
          refine ⟨rfl, Table.rel_insert hmem ⟨rfl, rfl, hbranch⟩ fun e he hne => ⟨rfl, rfl, ?_⟩⟩
          refine layered_self fun id hid hmem' => hne ?_
          obtain rfl := List.mem_singleton.1 hid
          exact congrArg Prod.fst (honly e he hmem')

theorem Graft.stands {n n' : Node (Children deep)} {way path : Path} {limit : Option Nat}
    {since : Nat} {strict : Prop} {Q : Leaf → Prop} {post : Post} {rest : List Number} {b : Books}
    (h : Graft n n' way below path node node')
    (hs : Setting.Stands limit since strict post rest (Child.Sound Q strict below path post)
      (node, b)) : ∃ post' rest', Setting.Stands limit since strict post' rest'
        (Child.Sound Q strict deep way post') (n, b) := by
  induction h generalizing post rest with
  | here => exact ⟨post, rest, hs⟩
  | under hmem _ ih =>
      have hbranch := hs.descend hmem (hs.manned.tended.holds.each _ hmem)
      rw [← hs.step_eq] at hbranch
      exact ih hbranch

end Node

end EventContexts
