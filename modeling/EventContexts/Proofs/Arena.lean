import EventContexts.Proofs.Run

namespace EventContexts

structure Entry where
  parent : Option ControllerId
  place : UInt32
  depth : Nat
  controller : Controller
  links : List (UInt32 × Key × ControllerId)
  instances : List (UInt32 × Running)

namespace Entry

def id (x : Entry) : ControllerId := x.controller.id

/-- Where its controller says that it hangs. -/
def path (x : Entry) : UInt32 := x.controller.path

/-- How deep its controller says that it stands. -/
def level (x : Entry) : Nat := x.controller.nesting

def handles (x : Entry) : List (Key × Handle) :=
  x.links.map (fun (k, key, child) => (key, .branch x.id k child)) ++
    x.instances.map fun (p, r) => (r.key, .leaf x.id p r.generation)

end Entry

theorem Entry.nodup_handles {x : Entry} (hlinks : (x.links.map Prod.fst).Nodup)
    (hinstances : (x.instances.map Prod.fst).Nodup) : (x.handles.map Prod.snd).Nodup := by
  rw [handles, List.map_append, List.map_map, List.map_map, List.nodup_append]
  refine ⟨?_, ?_, ?_⟩
  · apply List.Nodup.of_map Handle.id
    rw [List.map_map]
    exact hlinks
  · apply List.Nodup.of_map Handle.id
    rw [List.map_map]
    exact hinstances
  · intro g hg h hh heq
    obtain ⟨link, -, rfl⟩ := List.mem_map.1 hg
    obtain ⟨i, -, rfl⟩ := List.mem_map.1 hh
    cases heq

theorem Entry.owner_of_mem_handles {x : Entry} {h : Handle} (hh : h ∈ x.handles.map Prod.snd) :
    x.id = h.owner := by
  obtain ⟨m, hm, rfl⟩ := List.mem_map.1 hh
  rcases List.mem_append.1 hm with hm | hm
  · obtain ⟨link, -, rfl⟩ := List.mem_map.1 hm
    rfl
  · obtain ⟨i, -, rfl⟩ := List.mem_map.1 hm
    rfl

namespace Node

def entry : (below : List Level) → (parent : Option ControllerId) → (place : UInt32) →
    (depth : Nat) → Node (Children below) → Entry
  | [], parent, place, depth, node =>
      let partitions : Table Running := node.children
      { parent, place, depth, controller := node.controller, links := []
        instances := partitions.entries }
  | _ :: below, parent, place, depth, node =>
      let branches : Table (Branch (Children below)) := node.children
      { parent, place, depth, controller := node.controller
        links := branches.entries.map fun (k, b) => (k, b.key, b.node.controller.id)
        instances := [] }

def entries : (below : List Level) → (parent : Option ControllerId) → (place : UInt32) →
    (depth : Nat) → Node (Children below) → List Entry
  | [], parent, place, depth, node => [node.entry [] parent place depth]
  | l :: below, parent, place, depth, node =>
      let branches : Table (Branch (Children below)) := node.children
      node.entry (l :: below) parent place depth ::
        branches.entries.flatMap fun (k, b) =>
          entries below (some node.controller.id) k (depth + 1) b.node

variable {below : List Level} {parent : Option ControllerId} {place : UInt32} {depth : Nat}
  {node : Node (Children below)} {x p : Entry}

theorem mem_entries_cons {l : Level} {node : Node (Children (l :: below))} :
    x ∈ node.entries (l :: below) parent place depth ↔
      x = node.entry (l :: below) parent place depth ∨
        ∃ e ∈ (node.children : Table (Branch (Children below))).entries,
          x ∈ e.2.node.entries below (some node.controller.id) e.1 (depth + 1) := by
  rw [entries, List.mem_cons, List.mem_flatMap]

theorem entry_mem_entries :
    node.entry below parent place depth ∈ node.entries below parent place depth := by
  cases below <;> exact List.mem_cons_self ..

theorem id_entry : (node.entry below parent place depth).id = node.controller.id := by
  cases below <;> rfl

theorem parent_entry : (node.entry below parent place depth).parent = parent := by
  cases below <;> rfl

theorem place_entry : (node.entry below parent place depth).place = place := by
  cases below <;> rfl

theorem depth_entry : (node.entry below parent place depth).depth = depth := by
  cases below <;> rfl

theorem handles_entry : (node.entry below parent place depth).handles =
    node.children.table.entries.map fun e => (e.2.key, e.2.handle node.controller.id e.1) := by
  cases below with
  | nil => rfl
  | cons l below =>
      rw [Entry.handles, entry, List.map_nil, List.append_nil, List.map_map]
      rfl

theorem ids_entries :
    (node.entries below parent place depth).map Entry.id =
      node.numbers.filterMap Number.controller? := by
  induction below generalizing parent place depth with
  | nil =>
      simp [entries, id_entry, numbers, Children.numbers, List.filterMap_flatMap,
        Number.controller?]
  | cons l below ih =>
      rw [entries, List.map_cons, List.map_flatMap, id_entry]
      refine congrArg (node.controller.id :: ·) ?_
      rw [Children.numbers, List.filterMap_flatMap]
      exact List.flatMap_congr fun e _ => ih

theorem partitions_entries :
    (node.entries below parent place depth).flatMap (fun x => x.instances.map Prod.fst) =
      node.numbers.filterMap Number.partition? := by
  induction below generalizing parent place depth with
  | nil =>
      let t : Table Running := node.children
      have hnumbers : node.children.numbers.filterMap Number.partition? =
          t.entries.map Prod.fst := by
        rw [Children.numbers, List.filterMap_flatMap, List.map_eq_flatMap]
        rfl
      rw [entries, List.flatMap_singleton]
      exact hnumbers.symm
  | cons l below ih =>
      rw [entries, List.flatMap_cons, List.flatMap_assoc, numbers, Children.numbers,
        List.filterMap_cons_none rfl, List.filterMap_flatMap]
      exact List.flatMap_congr fun e _ => ih

theorem hangs_of_mem_entries (hx : x ∈ node.entries below parent place depth) :
    x = node.entry below parent place depth ∨
      ∃ p ∈ node.entries below parent place depth, x.parent = some p.id ∧
        (∃ key, (x.place, key, x.id) ∈ p.links) ∧ x.depth = p.depth + 1 := by
  induction below generalizing parent place depth with
  | nil => exact .inl (List.mem_singleton.1 hx)
  | cons l below ih =>
      rcases mem_entries_cons.1 hx with rfl | ⟨⟨k, b⟩, he, hx⟩
      · exact .inl rfl
      · right
        rcases ih hx with rfl | ⟨p, hp, hparent⟩
        · refine ⟨_, entry_mem_entries, ?_⟩
          rw [parent_entry, place_entry, depth_entry, depth_entry, id_entry, id_entry]
          exact ⟨rfl, ⟨b.key, List.mem_map.2 ⟨(k, b), he, rfl⟩⟩, rfl⟩
        · exact ⟨p, mem_entries_cons.2 (.inr ⟨_, he, hp⟩), hparent⟩

theorem linked_of_mem_entries (hp : p ∈ node.entries below parent place depth)
    {link : UInt32 × Key × ControllerId} (hlink : link ∈ p.links) :
    ∃ x ∈ node.entries below parent place depth, x.id = link.2.2 ∧ x.parent = some p.id ∧
      x.place = link.1 := by
  induction below generalizing parent place depth with
  | nil =>
      obtain rfl := List.mem_singleton.1 hp
      cases hlink
  | cons l below ih =>
      rcases mem_entries_cons.1 hp with rfl | ⟨⟨k, b⟩, he, hp⟩
      · obtain ⟨⟨k, b⟩, he, rfl⟩ := List.mem_map.1 hlink
        refine ⟨_, mem_entries_cons.2 (.inr ⟨_, he, entry_mem_entries⟩), ?_⟩
        rw [parent_entry, place_entry, id_entry]
        exact ⟨rfl, rfl, rfl⟩
      · obtain ⟨x, hx, hfacts⟩ := ih hp
        exact ⟨x, mem_entries_cons.2 (.inr ⟨_, he, hx⟩), hfacts⟩

theorem depth_of_mem_entries (hx : x ∈ node.entries below parent place depth) :
    (x.instances ≠ [] → x.depth = depth + below.length) ∧
      (x.links ≠ [] → x.depth < depth + below.length) := by
  induction below generalizing parent place depth with
  | nil =>
      obtain rfl := List.mem_singleton.1 hx
      simp [entry]
  | cons l below ih =>
      rcases mem_entries_cons.1 hx with rfl | ⟨⟨k, b⟩, he, hx⟩
      · refine ⟨fun h => absurd rfl h, fun _ => ?_⟩
        rw [depth_entry, List.length_cons]
        omega
      · obtain ⟨hinstances, hlinks⟩ := ih hx
        rw [List.length_cons]
        constructor
        · intro h
          have hdepth := hinstances h
          omega
        · intro h
          have hdepth := hlinks h
          omega

theorem ascending_of_mem_entries (hx : x ∈ node.entries below parent place depth) :
    (x.links.map Prod.fst).Pairwise (· < ·) ∧ (x.instances.map Prod.fst).Pairwise (· < ·) := by
  induction below generalizing parent place depth with
  | nil =>
      let t : Table Running := node.children
      obtain rfl := List.mem_singleton.1 hx
      exact ⟨.nil, t.ascending⟩
  | cons l below ih =>
      rcases mem_entries_cons.1 hx with rfl | ⟨⟨k, b⟩, he, hx⟩
      · let t : Table (Branch (Children below)) := node.children
        refine ⟨?_, .nil⟩
        rw [entry, List.map_map]
        exact t.ascending
      · exact ih hx

theorem nodup_of_mem_entries (hx : x ∈ node.entries below parent place depth) :
    (x.links.map Prod.fst).Nodup ∧ (x.instances.map Prod.fst).Nodup := by
  obtain ⟨hlinks, hinstances⟩ := ascending_of_mem_entries hx
  exact ⟨hlinks.imp UInt32.ne_of_lt, hinstances.imp UInt32.ne_of_lt⟩

variable {strict : Prop} {Q : Leaf → Prop} {path : Path} {post : Post}

theorem controller_entry :
    (node.entry below parent place depth).controller = node.controller := by
  cases below <;> rfl

structure Posted (levels : List Level) (depth : Nat) (x : Entry) : Prop where
  path : x.path = x.place
  level : x.level = x.depth
  declared : ∃ i, x.depth = depth + i ∧ levels[i]? = some x.controller.level

theorem posted_entry (h : node.Sound Q strict below path post) :
    Posted (post.level :: below) post.nesting (node.entry below parent post.path post.nesting) := by
  obtain ⟨rfl, -⟩ := h
  constructor
  · rw [Entry.path, controller_entry, place_entry]
    rfl
  · rw [Entry.level, controller_entry, depth_entry]
    rfl
  · rw [controller_entry, depth_entry]
    exact ⟨0, rfl, rfl⟩

theorem posted_of_mem_entries (h : node.Sound Q strict below path post)
    (hx : x ∈ node.entries below parent post.path post.nesting) :
    Posted (post.level :: below) post.nesting x := by
  induction below generalizing parent path post with
  | nil =>
      obtain rfl := List.mem_singleton.1 hx
      exact posted_entry h
  | cons l below ih =>
      rcases mem_entries_cons.1 hx with rfl | ⟨⟨k, b⟩, he, hx⟩
      · exact posted_entry h
      · have hbranch := Child.sound_branch.1 (h.tended.holds.each (k, b) he)
        obtain ⟨hpath, hlevel, i, hdepth, hdeclared⟩ := ih hbranch hx
        exact ⟨hpath, hlevel, i + 1, by rw [hdepth]; simp only; omega, hdeclared⟩

theorem remembered_entry (h : node.Sound Q strict below path post) (hs : strict) :
    (node.entry below parent place depth).controller.children.entries.Perm
      (node.entry below parent place depth).handles := by
  obtain ⟨rfl, -, -, hfamily⟩ := h
  rw [controller_entry, handles_entry]
  exact hfamily.remembered hs

theorem remembered_of_mem_entries (h : node.Sound Q strict below path post) (hs : strict)
    (hx : x ∈ node.entries below parent place depth) :
    x.controller.children.entries.Perm x.handles := by
  induction below generalizing parent place depth path post with
  | nil =>
      obtain rfl := List.mem_singleton.1 hx
      exact remembered_entry h hs
  | cons l below ih =>
      rcases mem_entries_cons.1 hx with rfl | ⟨⟨k, b⟩, he, hx⟩
      · exact remembered_entry h hs
      · exact ih (Child.sound_branch.1 (h.tended.holds.each (k, b) he)) hx

end Node

namespace Context

variable {c : Context}

def entries (c : Context) : List Entry :=
  match c.root with
  | some root => root.entries _ none 0 1
  | none => []

theorem entries_with (c : Context) {statements : List Statement}
    {recovery : Option (List Assignment)} {now : Int64} {books : Books} :
    ({ c with statements, recovery, now, books } : Context).entries = c.entries := by
  simp only [entries]
  cases c.root <;> rfl

/-- The entries form one tree, with the running partitions at its bottom. -/
structure Arranged (c : Context) : Prop where
  ids : (c.entries.map Entry.id).Nodup
  root : ∀ x ∈ c.entries, x.parent = none ↔ c.rootId? = some x.id
  rooted : ∀ id ∈ c.rootId?, ∃ x ∈ c.entries, x.id = id
  parents : ∀ x ∈ c.entries, ∀ id ∈ x.parent,
    ∃ p ∈ c.entries, p.id = id ∧ ∃ key, (x.path, key, x.id) ∈ p.links
  links : ∀ p ∈ c.entries, ∀ link ∈ p.links,
    ∃ x ∈ c.entries, x.id = link.2.2 ∧ x.parent = some p.id ∧ x.path = link.1
  paths : ∀ p ∈ c.entries, (p.links.map Prod.fst).Nodup
  rootLevel : ∀ x ∈ c.entries, x.parent = none → x.level = 1
  levels : ∀ x ∈ c.entries, ∀ p ∈ c.entries, x.parent = some p.id → x.level = p.level + 1
  instances : ∀ x ∈ c.entries, x.instances ≠ [] → x.level = c.depth
  children : ∀ x ∈ c.entries, x.links ≠ [] → x.level < c.depth
  allocated : ∀ x ∈ c.entries, ∀ i ∈ x.instances, i.1 ∈ c.allocatedIds
  running : ∀ p ∈ c.allocatedIds,
    ∃! i : Entry × Running, i.1 ∈ c.entries ∧ (p, i.2) ∈ i.1.instances
  limit : ∀ n ∈ c.options.limit, c.allocatedIds.length ≤ n

theorem arranged_nil (hroot : c.root = none) (h : c.books.Accounts c.options.limit 0 []) :
    c.Arranged := by
  have hentries : c.entries = [] := by simp only [entries, hroot]
  have hids : c.allocatedIds = [] := List.perm_nil.1 h.partitions
  constructor
  all_goals simp only [hentries, hids, List.map_nil, List.not_mem_nil, false_implies, implies_true]
  · exact List.nodup_nil
  · simp [rootId?, hroot]
  · exact fun _ _ => Nat.zero_le _

theorem existsUnique_instance {xs : List Entry} {p : UInt32}
    (hxs : (xs.flatMap fun x => x.instances.map Prod.fst).Nodup)
    (hp : p ∈ xs.flatMap fun x => x.instances.map Prod.fst) :
    ∃! i : Entry × Running, i.1 ∈ xs ∧ (p, i.2) ∈ i.1.instances := by
  let all : List (Entry × (UInt32 × Running)) := xs.flatMap fun x => x.instances.map fun i => (x, i)
  have hmap : all.map (fun y => y.2.1) = xs.flatMap fun x => x.instances.map Prod.fst := by
    rw [List.map_flatMap]
    exact List.flatMap_congr fun x _ => List.map_map
  have hall {x : Entry} {r : Running} : (x, (p, r)) ∈ all ↔ x ∈ xs ∧ (p, r) ∈ x.instances := by
    simp [all]
  obtain ⟨x, hx, hmem⟩ := List.mem_flatMap.1 hp
  obtain ⟨⟨_, r⟩, hr, rfl⟩ := List.mem_map.1 hmem
  refine ⟨(x, r), ⟨hx, hr⟩, ?_⟩
  rintro ⟨x', r'⟩ ⟨hx', hr'⟩
  rw [← hmap] at hxs
  have heq := List.inj_on_of_nodup_map hxs (hall.2 ⟨hx', hr'⟩) (hall.2 ⟨hx, hr⟩) rfl
  rw [Prod.mk.injEq, Prod.mk.injEq] at heq
  exact Prod.ext heq.1 heq.2.2

section upholds

variable {root : Node (Children c.declaration.inner)} {strict : Prop} {Q : Leaf → Prop}
  {since : Nat} {x p : Entry}

theorem entries_of_root (hroot : c.root = some root) :
    c.entries = root.entries c.declaration.inner none 0 1 := by
  simp only [entries, hroot]

theorem Upholds.accounts (h : c.Upholds since strict Q (root, c.books)) :
    c.books.Accounts c.options.limit since root.numbers := by
  obtain ⟨id, hs⟩ := h
  have hid : root.controller.id = id := congrArg Post.id hs.manned.stands
  rw [Node.numbers, hid]
  exact hs.accounts.perm List.perm_append_comm

variable (hroot : c.root = some root) (h : c.Upholds since strict Q (root, c.books))

include hroot

theorem mem_entries_of_root : root.entry c.declaration.inner none 0 1 ∈ c.entries := by
  rw [entries_of_root hroot]
  exact Node.entry_mem_entries

theorem hangs_of_root (hx : x ∈ c.entries) : x = root.entry c.declaration.inner none 0 1 ∨
    ∃ p ∈ c.entries, x.parent = some p.id ∧ (∃ key, (x.place, key, x.id) ∈ p.links) ∧
      x.depth = p.depth + 1 := by
  rw [entries_of_root hroot] at hx ⊢
  exact Node.hangs_of_mem_entries hx

theorem depth_of_root (hx : x ∈ c.entries) :
    (x.instances ≠ [] → x.depth = c.depth) ∧ (x.links ≠ [] → x.depth < c.depth) := by
  have hdepth : c.depth = 1 + c.declaration.inner.length := Nat.add_comm _ 1
  rw [entries_of_root hroot] at hx
  rw [hdepth]
  exact Node.depth_of_mem_entries hx

include h

theorem Upholds.nodup_ids : (c.entries.map Entry.id).Nodup := by
  rw [entries_of_root hroot, Node.ids_entries]
  exact h.accounts.controllers

theorem Upholds.eq_of_id (hx : x ∈ c.entries) (hp : p ∈ c.entries) (hid : x.id = p.id) : x = p :=
  List.inj_on_of_nodup_map (h.nodup_ids hroot) hx hp hid

theorem Upholds.posted (hx : x ∈ c.entries) :
    Node.Posted (c.declaration.outer :: c.declaration.inner) 1 x := by
  obtain ⟨id, hs⟩ := h
  rw [entries_of_root hroot] at hx
  exact Node.posted_of_mem_entries hs.manned hx

theorem Upholds.allocated :
    (c.entries.flatMap fun x => x.instances.map Prod.fst).Perm c.allocatedIds := by
  rw [entries_of_root hroot, Node.partitions_entries]
  exact h.accounts.partitions.symm

theorem Upholds.arranged : c.Arranged where
  ids := h.nodup_ids hroot
  root x hx := by
    rw [rootId?, hroot, Option.map_some, Option.some.injEq]
    constructor
    · intro hnone
      rcases hangs_of_root hroot hx with rfl | ⟨p, -, hparent, -⟩
      · exact Node.id_entry.symm
      · rw [hnone] at hparent
        cases hparent
    · intro heq
      rw [h.eq_of_id hroot hx (mem_entries_of_root hroot) (heq.symm.trans Node.id_entry.symm)]
      exact Node.parent_entry
  rooted id hid := by
    rw [rootId?, hroot, Option.map_some] at hid
    exact ⟨_, mem_entries_of_root hroot, Node.id_entry.trans (Option.some.inj hid)⟩
  parents x hx id hid := by
    rcases hangs_of_root hroot hx with rfl | ⟨p, hp, hparent, ⟨key, hlink⟩, -⟩
    · rw [Node.parent_entry] at hid
      cases hid
    · rw [hparent] at hid
      rw [← (h.posted hroot hx).path] at hlink
      exact ⟨p, hp, Option.some.inj hid, key, hlink⟩
  links p hp link hlink := by
    rw [entries_of_root hroot] at hp
    obtain ⟨x, hx, hid, hparent, hplace⟩ := Node.linked_of_mem_entries hp hlink
    rw [← entries_of_root hroot] at hx
    exact ⟨x, hx, hid, hparent, (h.posted hroot hx).path.trans hplace⟩
  paths p hp := by
    rw [entries_of_root hroot] at hp
    exact (Node.nodup_of_mem_entries hp).1
  rootLevel x hx hnone := by
    rcases hangs_of_root hroot hx with rfl | ⟨p, -, hparent, -⟩
    · exact (h.posted hroot hx).level.trans Node.depth_entry
    · rw [hnone] at hparent
      cases hparent
  levels x hx p hp hparent := by
    rcases hangs_of_root hroot hx with rfl | ⟨q, hq, hparent', -, hdepth⟩
    · rw [Node.parent_entry] at hparent
      cases hparent
    · obtain rfl := h.eq_of_id hroot hp hq (Option.some.inj (hparent.symm.trans hparent'))
      rw [(h.posted hroot hx).level, (h.posted hroot hp).level]
      exact hdepth
  instances x hx hne := by
    rw [(h.posted hroot hx).level]
    exact (depth_of_root hroot hx).1 hne
  children x hx hne := by
    rw [(h.posted hroot hx).level]
    exact (depth_of_root hroot hx).2 hne
  allocated x hx i hi :=
    (h.allocated hroot).subset (List.mem_flatMap.2 ⟨x, hx, List.mem_map_of_mem hi⟩)
  running p hp := by
    refine existsUnique_instance ?_ ((h.allocated hroot).mem_iff.2 hp)
    exact (h.allocated hroot).nodup_iff.2 c.books.ids.nodup_ids
  limit := h.accounts.limit

end upholds

theorem entries_arranged (h : Reachable (fun _ => True) c) : c.Arranged := by
  have hsound : c.Sound False := h.sound False.elim
  cases hroot : c.root with
  | none => exact arranged_nil hroot (hsound.idle hroot)
  | some root => exact (hsound.tree root hroot).arranged hroot

theorem visited_entries_arranged : visited.entries.map Entry.level = [1, 2] ∧ visited.Arranged :=
  ⟨rfl, entries_arranged (reachable_visited.mono fun _ _ => trivial)⟩

/-- Every controller is at the place, at the depth and of the level of its entry, and remembers
exactly the children of its entry. -/
structure Agreeing (c : Context) : Prop where
  path : ∀ x ∈ c.entries, x.controller.path = x.place
  nesting : ∀ x ∈ c.entries, x.controller.nesting = x.depth
  level : ∀ x ∈ c.entries, c.declaration.levels[x.depth - 1]? = some x.controller.level
  children : ∀ x ∈ c.entries, x.controller.children.entries.Perm x.handles
  keys : ∀ x ∈ c.entries, (x.handles.map Prod.fst).Nodup
  handles : ∀ x ∈ c.entries, (x.handles.map Prod.snd).Nodup

theorem controllers_agree (h : Reachable Operation.Regular c) : c.Agreeing := by
  have hsound : c.Sound True := h.sound fun _ _ hop => hop
  cases hroot : c.root with
  | none =>
      have hentries : c.entries = [] := by simp only [entries, hroot]
      constructor
      all_goals
        intro x hx
        rw [hentries] at hx
        cases hx
  | some root =>
      have hup := hsound.tree root hroot
      have hchildren {x : Entry} (hx : x ∈ c.entries) :
          x.controller.children.entries.Perm x.handles := by
        obtain ⟨id, hs⟩ := hup
        rw [entries_of_root hroot] at hx
        exact Node.remembered_of_mem_entries hs.manned trivial hx
      constructor
      · exact fun x hx => (hup.posted hroot hx).path
      · exact fun x hx => (hup.posted hroot hx).level
      · intro x hx
        obtain ⟨i, hdepth, hlevel⟩ := (hup.posted hroot hx).declared
        rw [hdepth, Nat.add_sub_cancel_left]
        exact hlevel
      · exact fun x hx => hchildren hx
      · intro x hx
        exact ((hchildren hx).map Prod.fst).nodup_iff.1 x.controller.children.nodup
      · intro x hx
        rw [entries_of_root hroot] at hx
        obtain ⟨hlinks, hinstances⟩ := Node.nodup_of_mem_entries hx
        exact Entry.nodup_handles hlinks hinstances

theorem visited_controllers_agree :
    (visited.entries.map fun x => x.handles.length) = [1, 1] ∧ visited.Agreeing :=
  ⟨rfl, controllers_agree reachable_visited⟩

end Context

end EventContexts
