import EventContexts.Proofs.Arena

namespace EventContexts

/-- A tree, and what becomes of it when the node at the end of `way` is replaced. -/
inductive Node.Graft {deep : List Level} (n n' : Node (Children deep)) (way : Path) :
    (below : List Level) → Path → Node (Children below) → Node (Children below) → Prop where
  | here : Graft n n' way deep way n n'
  | under {l : Level} {below : List Level} {path : Path} {node : Node (Children (l :: below))}
      {k : UInt32} {branch : Branch (Children below)} {m : Node (Children below)} :
      (k, branch) ∈ (node.children : Table (Branch (Children below))).entries →
      Graft n n' way below (path ++ [node.step branch.key branch.properties]) branch.node m →
      Graft n n' way (l :: below) path node (node.withBranch k branch m)

namespace Node

variable {deep below : List Level} {n n' : Node (Children deep)} {way path : Path}
  {node node' : Node (Children below)} {parent : Option ControllerId} {place : UInt32}
  {depth : Nat}

namespace Graft

theorem same (h : Graft n n way below path node node') : node' = node := by
  induction h with
  | here => rfl
  | @under l below path node k branch m hmem _ ih =>
      let branches : Table (Branch (Children below)) := node.children
      have hsame : branches.insert k { branch with node := m } = branches := by
        rw [ih]
        exact Table.insert_self hmem
      exact congrArg (fun c : Children (l :: below) => { node with children := c }) hsame

theorem controller (h : Graft n n' way below path node node')
    (hid : n'.controller.id = n.controller.id) : node'.controller.id = node.controller.id := by
  cases h with
  | here => exact hid
  | under => rfl

theorem entry_mem (h : Graft n n' way below path node node') (parent : Option ControllerId)
    (place : UInt32) (depth : Nat) : ∃ parent' place' depth',
      n.entry deep parent' place' depth' ∈ node.entries below parent place depth := by
  induction h generalizing parent place depth with
  | here => exact ⟨parent, place, depth, entry_mem_entries⟩
  | under hmem _ ih =>
      obtain ⟨parent', place', depth', hentry⟩ := ih _ _ _
      exact ⟨parent', place', depth', mem_entries_cons.2 (.inr ⟨_, hmem, hentry⟩)⟩

theorem leaves (h : Graft n n' way below path node node') :
    ∃ pre post, node.leaves below path = pre ++ n.leaves deep way ++ post ∧
      node'.leaves below path = pre ++ n'.leaves deep way ++ post := by
  induction h with
  | here => exact ⟨[], [], by simp, by simp⟩
  | @under l below path node k branch m hmem _ ih =>
      obtain ⟨pre, post, hbefore, hafter⟩ := ih
      let visit (e : UInt32 × Branch (Children below)) : List Leaf :=
        e.2.node.leaves below (path ++ [node.step e.2.key e.2.properties])
      let branch' : Branch (Children below) := { branch with node := m }
      have hafter : visit (k, branch') = pre ++ n'.leaves deep way ++ post := hafter
      exact Table.flatMap_insert hmem visit hbefore hafter

theorem entries (h : Graft n n' way below path node node')
    (hid : n'.controller.id = n.controller.id) (parent : Option ControllerId) (place : UInt32)
    (depth : Nat) : ∃ pre post parent' place' depth',
      node.entries below parent place depth =
        pre ++ n.entries deep parent' place' depth' ++ post ∧
      node'.entries below parent place depth =
        pre ++ n'.entries deep parent' place' depth' ++ post := by
  induction h generalizing parent place depth with
  | here => exact ⟨[], [], parent, place, depth, by simp, by simp⟩
  | @under l below path node k branch m hmem hgraft ih =>
      obtain ⟨pre, post, parent', place', depth', hbefore, hafter⟩ :=
        ih (some node.controller.id) k (depth + 1)
      let branches : Table (Branch (Children below)) := node.children
      let branch' : Branch (Children below) := { branch with node := m }
      let visit (e : UInt32 × Branch (Children below)) : List Entry :=
        e.2.node.entries below (some node.controller.id) e.1 (depth + 1)
      let link (e : UInt32 × Branch (Children below)) : UInt32 × Key × ControllerId :=
        (e.1, e.2.key, e.2.node.controller.id)
      have hlinks : (branches.insert k branch').entries.map link = branches.entries.map link := by
        obtain ⟨before, after, hsplit, -, hinsert⟩ := Table.split_of_mem hmem
        have hlink : link (k, branch') = link (k, branch) :=
          congrArg (fun id => (k, branch.key, id)) (hgraft.controller hid)
        rw [hinsert, hsplit, List.map_append, List.map_append, List.map_cons, List.map_cons, hlink]
      have hentry : (node.withBranch k branch m).entry (l :: below) parent place depth =
          node.entry (l :: below) parent place depth :=
        congrArg (fun links => Entry.mk parent place depth node.controller links []) hlinks
      have hafter : visit (k, branch') = pre ++ n'.entries deep parent' place' depth' ++ post :=
        hafter
      obtain ⟨before, after, hold, hnew⟩ := Table.flatMap_insert hmem visit hbefore hafter
      refine ⟨node.entry (l :: below) parent place depth :: before, after, parent', place', depth',
        congrArg (List.cons _) hold, ?_⟩
      rw [Node.entries, hentry]
      exact congrArg (List.cons _) hnew

theorem alone {l : Level} {node : Node (Children (l :: below))} {k : UInt32}
    {branch : Branch (Children below)} {m : Node (Children below)}
    (h : Graft n n' way below path branch.node m)
    (hmem : (k, branch) ∈ (node.children : Table (Branch (Children below))).entries)
    (hids : ((node.entries (l :: below) parent place depth).map Entry.id).Nodup) :
    n.controller.id ≠ node.controller.id ∧
      ((branch.node.entries below (some node.controller.id) k (depth + 1)).map Entry.id).Nodup ∧
      ∀ e ∈ (node.children : Table (Branch (Children below))).entries,
        n.controller.id ∈
          (e.2.node.entries below (some node.controller.id) e.1 (depth + 1)).map Entry.id →
        e = (k, branch) := by
  let branches : Table (Branch (Children below)) := node.children
  let ids (e : UInt32 × Branch (Children below)) : List ControllerId :=
    (e.2.node.entries below (some node.controller.id) e.1 (depth + 1)).map Entry.id
  rw [Node.entries, List.map_cons, List.nodup_cons, List.map_flatMap, id_entry] at hids
  obtain ⟨hself, hunder⟩ : node.controller.id ∉ branches.entries.flatMap ids ∧
    (branches.entries.flatMap ids).Nodup := hids
  obtain ⟨_, _, _, hentry⟩ := h.entry_mem (some node.controller.id) k (depth + 1)
  have hin : n.controller.id ∈ ids (k, branch) := List.mem_map.2 ⟨_, hentry, id_entry⟩
  refine ⟨fun heq => hself ?_, (List.nodup_flatMap.1 hunder).1 _ hmem, fun e he hid => ?_⟩
  · exact heq ▸ List.mem_flatMap.2 ⟨_, hmem, hin⟩
  · exact hunder.eq_of_mem_flatMap he hmem hid hin

end Graft

variable {α : Type} {id : ControllerId} {b : Books}
  {f : (below : List Level) → Path → Act (Node (Children below) × Books) α}

theorem atController_none (h : atController id f below path (node, b) = none) :
    ∀ x ∈ node.entries below parent place depth, x.id ≠ id := by
  induction below generalizing path parent place depth with
  | nil =>
      rw [atController] at h
      split at h
      · cases h
      · next hne =>
          intro x hx
          rw [List.mem_singleton.1 hx, id_entry]
          exact hne
  | cons l below ih =>
      rw [atController] at h
      split at h
      · cases h
      · next hne =>
          intro x hx
          rcases mem_entries_cons.1 hx with rfl | ⟨⟨k, branch⟩, hmem, hx⟩
          · rw [id_entry]
            exact hne
          · have hvisit := List.findSome?_eq_none_iff.1 h (k, branch) hmem
            exact ih (Option.map_eq_none_iff.1 hvisit) x hx

theorem atController_some {o : Except Error α × (Node (Children below) × Books)}
    (h : atController id f below path (node, b) = some o) :
    ∃ (deep : List Level) (way : Path) (n : Node (Children deep)), n.controller.id = id ∧
      Graft n (f deep way (n, b)).2.1 way below path node o.2.1 ∧
      o.1 = (f deep way (n, b)).1 ∧ o.2.2 = (f deep way (n, b)).2.2 := by
  induction below generalizing path with
  | nil =>
      rw [atController] at h
      split at h
      · next hid =>
          obtain rfl := Option.some.inj h
          exact ⟨[], path, node, hid, .here, rfl, rfl⟩
      · cases h
  | cons l below ih =>
      rw [atController] at h
      split at h
      · next hid =>
          obtain rfl := Option.some.inj h
          exact ⟨l :: below, path, node, hid, .here, rfl, rfl⟩
      · obtain ⟨⟨k, branch⟩, hmem, hvisit⟩ := List.exists_of_findSome?_eq_some h
        obtain ⟨⟨r, m, b'⟩, hm, rfl⟩ := Option.map_eq_some_iff.1 hvisit
        obtain ⟨deep, way, n, hid, hgraft, hr, hb⟩ := ih hm
        have hcontains : (node.children : Table (Branch (Children below))).contains k = true :=
          Table.contains_iff.2 (List.mem_map_of_mem hmem)
        refine ⟨deep, way, n, hid, ?_, hr, hb⟩
        simp only [Table.replace, hcontains]
        exact hgraft.under hmem

end Node

namespace Context

theorem atController_cases {α : Type} (c : Context) (id : ControllerId)
    (f : (below : List Level) → Path → Act (Node (Children below) × Books) α)
    (d : Except Error α × Context) :
    ((c.onRoot fun tree => Node.atController id f _ [] tree).getD d = d ∧
        ∀ x ∈ c.entries, x.id ≠ id) ∨
      ∃ (root root' : Node (Children c.declaration.inner)) (deep : List Level) (way : Path)
        (n : Node (Children deep)), c.root = some root ∧ n.controller.id = id ∧
        Node.Graft n (f deep way (n, c.books)).2.1 way c.declaration.inner [] root root' ∧
        (c.onRoot fun tree => Node.atController id f _ [] tree).getD d =
          ((f deep way (n, c.books)).1,
            { c with root := some root', books := (f deep way (n, c.books)).2.2 }) := by
  cases hroot : c.root with
  | none => exact .inl ⟨by simp [onRoot, hroot], by simp [entries, hroot]⟩
  | some root =>
      cases ho : Node.atController id f c.declaration.inner [] (root, c.books) with
      | none =>
          refine .inl ⟨by simp [onRoot, hroot, ho], fun x hx => ?_⟩
          rw [entries_of_root hroot] at hx
          exact Node.atController_none ho x hx
      | some o =>
          obtain ⟨deep, way, n, hid, hgraft, hr, hb⟩ := Node.atController_some ho
          refine .inr ⟨root, o.2.1, deep, way, n, rfl, hid, hgraft, ?_⟩
          simp [onRoot, hroot, ho, ← hr, ← hb]

end Context

end EventContexts
