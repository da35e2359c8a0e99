import EventContexts.Proofs.Grafts

namespace EventContexts

variable {below : List Level} {parent : Option ControllerId} {place : UInt32} {depth : Nat}
  {path : Path} {owner : Controller} {x y : Entry} {ℓ : Leaf}

def Child.leaves (owner : Controller) (path : Path) :
    {below : List Level} → UInt32 × Child below → List Leaf
  | [], (p, r) =>
      let r : Running := r
      [⟨path ++ [⟨owner.level, r.key, r.properties⟩], owner.id, p, r⟩]
  | _ :: below, (_, b) =>
      let b : Branch (Children below) := b
      b.node.leaves below (path ++ [⟨owner.level, b.key, b.properties⟩])

def Child.entries (id : ControllerId) (depth : Nat) :
    {below : List Level} → UInt32 × Child below → List Entry
  | [], _ => []
  | _ :: below, (k, b) =>
      let b : Branch (Children below) := b
      b.node.entries below (some id) k (depth + 1)

def Entry.without (h : Handle) (x : Entry) : Entry :=
  { x with
    controller := if x.id = h.owner then x.controller.forget h else x.controller
    links := x.links.filter fun (k, _, child) => .branch x.id k child ≠ h
    instances := x.instances.filter fun (p, r) => .leaf x.id p r.generation ≠ h }

namespace Entry

variable {h : Handle} {xs ys : List Entry}

end Entry

namespace Children

variable {children : Children below} {k : UInt32} {a : Child below}

end Children

theorem Child.leaves_forget {h : Handle} : Child.leaves (owner.forget h) path =
    (Child.leaves owner path : UInt32 × Child below → List Leaf) := by
  have hlevel : (owner.forget h).level = owner.level := Scheme.level_forget
  funext e
  cases below with
  | nil =>
      simp only [leaves, hlevel]
      rfl
  | cons l below => simp only [leaves, hlevel]

namespace Node

variable {node : Node (Children below)}

theorem leaves_eq : node.leaves below path =
    node.children.table.entries.flatMap (Child.leaves node.controller path) := by
  cases below with
  | nil =>
      rw [leaves, List.map_eq_flatMap]
      rfl
  | cons l below => rfl

theorem entries_eq : node.entries below parent place depth =
    node.entry below parent place depth ::
      node.children.table.entries.flatMap (Child.entries node.controller.id depth) := by
  cases below with
  | nil =>
      refine congrArg (List.cons _) (List.flatMap_eq_nil_iff.2 fun e _ => ?_).symm
      rfl
  | cons l below => rfl

section without

variable {k : UInt32} {a : Child below}

theorem leaves_without (hmem : (k, a) ∈ node.children.table.entries) (path : Path) :
    ∃ pre post,
      node.leaves below path = pre ++ Child.leaves node.controller path (k, a) ++ post ∧
      (node.without (a.handle node.controller.id k)).leaves below path = pre ++ post := by
  obtain ⟨pre, post, hbefore, hafter⟩ :=
    Table.flatMap_erase hmem (Child.leaves node.controller path)
  refine ⟨pre, post, ?_, ?_⟩
  · rw [leaves_eq, hbefore]
  · rw [leaves_eq, without, Children.table_erase _, Child.id_handle, Child.leaves_forget, hafter]

end without

def bottomUp : (below : List Level) → (parent : Option ControllerId) → (place : UInt32) →
    (depth : Nat) → Node (Children below) → List Entry
  | [], parent, place, depth, node => [node.entry [] parent place depth]
  | l :: below, parent, place, depth, node =>
      let branches : Table (Branch (Children below)) := node.children
      (branches.entries.flatMap fun (k, b) =>
        bottomUp below (some node.controller.id) k (depth + 1) b.node) ++
          [node.entry (l :: below) parent place depth]

theorem bottomUp_perm :
    (node.bottomUp below parent place depth).Perm (node.entries below parent place depth) := by
  induction below generalizing parent place depth with
  | nil => exact List.Perm.refl _
  | cons l below ih =>
      rw [bottomUp, entries]
      refine List.perm_append_comm.trans (List.Perm.cons _ ?_)
      exact List.Perm.flatMap_left _ fun e _ => ih

theorem leaves_bottomUp (parent : Option ControllerId) (place : UInt32) (depth : Nat) :
    (node.leaves below path).map (fun ℓ => (ℓ.controller, ℓ.partition, ℓ.running)) =
      (node.bottomUp below parent place depth).flatMap fun x =>
        x.instances.map fun i => (x.id, i) := by
  induction below generalizing path parent place depth with
  | nil =>
      rw [leaves, bottomUp, List.flatMap_singleton, List.map_map]
      rfl
  | cons l below ih =>
      rw [leaves, bottomUp, List.map_flatMap, List.flatMap_append, List.flatMap_assoc,
        List.flatMap_singleton]
      have hnone : (node.entry (l :: below) parent place depth).instances = [] := rfl
      rw [hnone, List.map_nil, List.append_nil]
      exact List.flatMap_congr fun e _ => ih (some node.controller.id) e.1 (depth + 1)

theorem mem_bottomUp : x ∈ node.bottomUp below parent place depth ↔
    x ∈ node.entries below parent place depth :=
  bottomUp_perm.mem_iff

theorem leaf_of_instance (hx : x ∈ node.entries below parent place depth) {i : UInt32 × Running}
    (hi : i ∈ x.instances) : ∃ ℓ ∈ node.leaves below path,
      (ℓ.controller, ℓ.partition, ℓ.running) = (x.id, i) := by
  rw [← List.mem_map, leaves_bottomUp parent place depth]
  exact List.mem_flatMap.2 ⟨x, mem_bottomUp.2 hx, List.mem_map_of_mem hi⟩

theorem instance_of_leaf (hℓ : ℓ ∈ node.leaves below path) :
    ∃ x ∈ node.entries below parent place depth, x.id = ℓ.controller ∧
      (ℓ.partition, ℓ.running) ∈ x.instances := by
  have hmem := List.mem_map_of_mem (f := fun ℓ => (ℓ.controller, ℓ.partition, ℓ.running)) hℓ
  rw [leaves_bottomUp parent place depth] at hmem
  obtain ⟨x, hx, hi⟩ := List.mem_flatMap.1 hmem
  obtain ⟨i, hi, heq⟩ := List.mem_map.1 hi
  obtain ⟨hid, rfl⟩ := Prod.mk.inj heq
  exact ⟨x, mem_bottomUp.1 hx, hid, hi⟩

theorem pairwise_bottomUp
    (hids : ((node.entries below parent place depth).map Entry.id).Nodup)
    (hparent : ∀ x ∈ node.entries below parent place depth, parent ≠ some x.id) :
    (node.bottomUp below parent place depth).Pairwise fun x y => y.parent ≠ some x.id := by
  induction below generalizing parent place depth with
  | nil => exact List.pairwise_singleton ..
  | cons l below ih =>
      let branches : Table (Branch (Children below)) := node.children
      let visit (e : UInt32 × Branch (Children below)) : List Entry :=
        e.2.node.entries below (some node.controller.id) e.1 (depth + 1)
      have hunder {e : UInt32 × Branch (Children below)} (he : e ∈ branches.entries) :
          ∀ x ∈ visit e, x ∈ node.entries (l :: below) parent place depth :=
        fun x hx => mem_entries_cons.2 (.inr ⟨e, he, hx⟩)
      rw [entries, List.map_cons, List.nodup_cons, List.map_flatMap] at hids
      obtain ⟨hself, hids⟩ := hids
      obtain ⟨heach, hacross⟩ := List.pairwise_flatMap.1 hids
      have hown {e : UInt32 × Branch (Children below)} (he : e ∈ branches.entries) :
          ∀ x ∈ visit e, some node.controller.id ≠ some x.id := by
        rintro x hx heq
        refine hself (List.mem_flatMap.2 ⟨e, he, List.mem_map.2 ⟨x, hx, ?_⟩⟩)
        rw [id_entry, Option.some.inj heq]
      rw [bottomUp, List.pairwise_append]
      refine ⟨List.pairwise_flatMap.2 ⟨fun e he => ih (heach e he) (hown he), ?_⟩,
        List.pairwise_singleton .., fun x hx y hy => ?_⟩
      · refine hacross.imp_of_mem fun {e e'} he he' hne x hx y hy heq => ?_
        have hx : x ∈ visit e := mem_bottomUp.1 hx
        rcases hangs_of_mem_entries (mem_bottomUp.1 hy) with rfl | ⟨p, hp, hparent, -⟩
        · rw [parent_entry] at heq
          exact hown he x hx heq
        · refine hne _ (List.mem_map_of_mem hx) _ (List.mem_map_of_mem hp) ?_
          exact Option.some.inj (heq.symm.trans hparent)
      · obtain rfl := List.mem_singleton.1 hy
        obtain ⟨e, he, hx⟩ := List.mem_flatMap.1 hx
        rw [parent_entry]
        exact hparent x (hunder he x (mem_bottomUp.1 hx))

end Node

end EventContexts
