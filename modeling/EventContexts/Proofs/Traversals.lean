import EventContexts.Proofs.Layers
import EventContexts.Proofs.Removal
/-!
Walks over the entries of a tree that know nothing but which entry goes by which number: from the
root down, from the bottom up, and from one controller up to the root. On the entries of a context
each of them ends, and goes where it should exactly once.
-/

namespace EventContexts

/-- Entries by the numbers of their controllers. Nothing says that they form a tree. -/
abbrev Arena := List Entry

namespace Entry

def branches (x : Entry) : List ControllerId := x.links.map fun link => link.2.2

theorem branches_anywhere {below : List Level} {node : Node (Children below)}
    {parent : Option ControllerId} {place : UInt32} {depth : Nat} :
    (node.entry below parent place depth).branches = (node.entry below none 0 0).branches := by
  cases below <;> rfl

theorem branches_entry {l : Level} {below : List Level} {node : Node (Children (l :: below))}
    {parent : Option ControllerId} {place : UInt32} {depth : Nat} :
    (node.entry (l :: below) parent place depth).branches =
      (node.children : Table (Branch (Children below))).entries.map
        fun e => e.2.node.controller.id := by
  rw [branches, Node.entry, List.map_map]
  rfl

end Entry

namespace Arena

variable (xs : Arena)

def find? (id : ControllerId) : Option Entry := List.find? (fun x => x.id = id) xs

/-- Takes a controller from the front of the queue and puts those under it at the end. A walk that
needs more steps than it may take has no result. -/
def topDown : (steps : Nat) → (queue done : List ControllerId) → Option (List ControllerId)
  | 0, _, _ => none
  | _ + 1, [], done => some done
  | steps + 1, id :: queue, done =>
      match xs.find? id with
      | some x => topDown steps (queue ++ x.branches) (done ++ [id])
      | none => topDown steps queue done

def bottomUp : (steps : Nat) → (id : ControllerId) → (done : List ControllerId) →
    Option (List ControllerId)
  | 0, _, _ => none
  | steps + 1, id, done =>
      match xs.find? id with
      | some x => do
          let done ← x.branches.foldlM (fun done child => bottomUp steps child done) done
          return done ++ [id]
      | none => some done

def upward : (steps : Nat) → (id : ControllerId) → (done : List ControllerId) →
    Option (List ControllerId)
  | 0, _, _ => none
  | steps + 1, id, done =>
      match xs.find? id with
      | some x =>
          match x.parent with
          | some parent => upward steps parent (done ++ [id])
          | none => some (done ++ [id])
      | none => some done

/-- A walk ends where any number of steps from some number on leads. -/
def EndsWith (walk : Nat → Option (List ControllerId)) (ids : List ControllerId) : Prop :=
  ∃ enough, ∀ steps, enough ≤ steps → walk steps = some ids

def partitions (ids : List ControllerId) : List (ControllerId × UInt32) :=
  ids.flatMap fun id =>
    match xs.find? id with
    | some x => x.instances.map fun i => (id, i.1)
    | none => []

def Hangs (child parent : ControllerId) : Prop :=
  ∃ x ∈ xs, x.id = child ∧ x.parent = some parent

variable {xs} {x : Entry} {id : ControllerId}

theorem EndsWith.after {walk next : Nat → Option (List ControllerId)} {ids : List ControllerId}
    (h : EndsWith next ids) (hfirst : ∀ steps, walk (steps + 1) = next steps) :
    EndsWith walk ids := by
  obtain ⟨enough, hnext⟩ := h
  refine ⟨enough + 1, fun steps hsteps => ?_⟩
  obtain ⟨more, rfl⟩ := Nat.exists_eq_add_of_le' hsteps
  rw [← Nat.add_assoc, hfirst]
  exact hnext _ (Nat.le_add_left ..)

theorem endsWith_of_succ {walk : Nat → Option (List ControllerId)} {ids : List ControllerId}
    (h : ∀ steps, walk (steps + 1) = some ids) : EndsWith walk ids := by
  refine ⟨1, fun steps hsteps => ?_⟩
  obtain ⟨more, rfl⟩ := Nat.exists_eq_add_of_le' hsteps
  exact h more

theorem find?_of_mem (h : (xs.map Entry.id).Nodup) (hx : x ∈ xs) : xs.find? x.id = some x := by
  cases hfind : xs.find? x.id with
  | none =>
      have hnone := List.find?_eq_none.1 hfind x hx
      simp at hnone
  | some y =>
      have hy : y.id = x.id := by simpa using List.find?_some hfind
      rw [List.inj_on_of_nodup_map h (List.mem_of_find?_eq_some hfind) hx hy]

end Arena

namespace Node

variable {xs : Arena} {below : List Level} {node : Node (Children below)}
  {parent : Option ControllerId} {place : UInt32} {depth : Nat} {x y : Entry} {id : ControllerId}

def Listed (xs : Arena) (below : List Level) (node : Node (Children below)) : Prop :=
  ∃ parent place depth, ∀ x ∈ node.entries below parent place depth, xs.find? x.id = some x

theorem Listed.find? (h : node.Listed xs below) : ∃ parent place depth,
    xs.find? node.controller.id = some (node.entry below parent place depth) := by
  obtain ⟨parent, place, depth, hentries⟩ := h
  have hself := hentries _ entry_mem_entries
  rw [id_entry] at hself
  exact ⟨parent, place, depth, hself⟩

theorem Listed.branch {l : Level} {node : Node (Children (l :: below))}
    (h : node.Listed xs (l :: below)) {e : UInt32 × Branch (Children below)}
    (he : e ∈ (node.children : Table (Branch (Children below))).entries) :
    e.2.node.Listed xs below := by
  obtain ⟨parent, place, depth, hentries⟩ := h
  exact ⟨_, e.1, depth + 1, fun x hx => hentries x (mem_entries_cons.2 (.inr ⟨e, he, hx⟩))⟩

def under {l : Level} {below : List Level} (nodes : List (Node (Children (l :: below)))) :
    List (Node (Children below)) :=
  nodes.flatMap fun node =>
    (node.children : Table (Branch (Children below))).entries.map fun e => e.2.node

theorem topDown_layer {nodes : List (Node (Children below))} (h : ∀ n ∈ nodes, n.Listed xs below)
    {queue done ids : List ControllerId}
    (hends : Arena.EndsWith (xs.topDown ·
      (queue ++ nodes.flatMap fun n => (n.entry below none 0 0).branches)
      (done ++ nodes.map fun n => n.controller.id)) ids) :
    Arena.EndsWith (xs.topDown · (nodes.map (fun n => n.controller.id) ++ queue) done) ids := by
  induction nodes generalizing queue done with
  | nil => simpa using hends
  | cons n rest ih =>
      obtain ⟨parent, place, depth, hfind⟩ := (h n (List.mem_cons_self ..)).find?
      have hrest : Arena.EndsWith (xs.topDown ·
          (rest.map (fun n => n.controller.id) ++
            (queue ++ (n.entry below parent place depth).branches))
          (done ++ [n.controller.id])) ids := by
        apply ih fun n hn => h n (List.mem_cons_of_mem _ hn)
        rw [Entry.branches_anywhere]
        simpa using hends
      refine hrest.after fun steps => ?_
      rw [List.map_cons, List.cons_append, Arena.topDown, hfind]
      simp

theorem topDown_nodes {nodes : List (Node (Children below))} (h : ∀ n ∈ nodes, n.Listed xs below)
    (done : List ControllerId) :
    Arena.EndsWith (xs.topDown · (nodes.map fun n => n.controller.id) done)
      (done ++ (List.range (below.length + 1)).flatMap fun i =>
        nodes.flatMap fun n => (n.controllersAt below i).map Controller.id) := by
  induction below generalizing done with
  | nil =>
      have hnone : (nodes.flatMap fun n => (n.entry [] none 0 0).branches) = [] :=
        List.flatMap_eq_nil_iff.2 fun n _ => rfl
      have hdone : Arena.EndsWith
          (xs.topDown · ([] ++ nodes.flatMap fun n => (n.entry [] none 0 0).branches)
            (done ++ nodes.map fun n => n.controller.id))
          (done ++ nodes.map fun n => n.controller.id) := by
        rw [hnone]
        exact Arena.endsWith_of_succ fun steps => rfl
      have hwalk := topDown_layer h hdone
      rw [List.append_nil] at hwalk
      simpa [controllersAt, List.map_eq_flatMap] using hwalk
  | cons l below ih =>
      have hbranches : (nodes.flatMap fun n => (n.entry (l :: below) none 0 0).branches) =
          (under nodes).map fun n => n.controller.id := by
        simp only [Entry.branches_entry, under, List.map_flatMap, List.map_map, Function.comp_def]
      have hunder : ∀ n ∈ under nodes, n.Listed xs below := by
        intro n hn
        obtain ⟨n', hn', hmem⟩ := List.mem_flatMap.1 hn
        obtain ⟨e, he, rfl⟩ := List.mem_map.1 hmem
        exact (h n' hn').branch he
      have hnext := ih hunder (done ++ nodes.map fun n => n.controller.id)
      rw [← List.nil_append ((under nodes).map _), ← hbranches] at hnext
      have hwalk := topDown_layer h hnext
      rw [List.append_nil] at hwalk
      rw [List.length_cons, List.range_succ_eq_map (n := below.length + 1), List.flatMap_cons]
      simpa [controllersAt, under, List.flatMap_assoc, List.map_eq_flatMap] using hwalk

theorem bottomUp_of_listed
    (h : ∀ x ∈ node.entries below parent place depth, xs.find? x.id = some x) {steps : Nat}
    (hsteps : below.length < steps) {done : List ControllerId} :
    xs.bottomUp steps node.controller.id done =
      some (done ++ (node.bottomUp below parent place depth).map Entry.id) := by
  have hself := h _ entry_mem_entries
  rw [id_entry] at hself
  induction below generalizing parent place depth steps done with
  | nil =>
      obtain ⟨more, rfl⟩ := Nat.exists_eq_add_of_lt hsteps
      rw [Arena.bottomUp, hself]
      rfl
  | cons l below ih =>
      obtain ⟨steps, rfl⟩ := Nat.exists_eq_succ_of_ne_zero (Nat.ne_zero_of_lt hsteps)
      have heach : ∀ e ∈ (node.children : Table (Branch (Children below))).entries, ∀ done,
          xs.bottomUp steps e.2.node.controller.id done = some (done ++
            (e.2.node.bottomUp below (some node.controller.id) e.1 (depth + 1)).map Entry.id) := by
        intro e he done
        have hentries : ∀ x ∈ e.2.node.entries below (some node.controller.id) e.1 (depth + 1),
            xs.find? x.id = some x := fun x hx => h x (mem_entries_cons.2 (.inr ⟨e, he, hx⟩))
        have hchild := hentries _ entry_mem_entries
        rw [id_entry] at hchild
        exact ih hentries (Nat.lt_of_succ_lt_succ hsteps) hchild
      rw [Arena.bottomUp, hself]
      simp only [Entry.branches_entry, List.foldlM_map]
      rw [List.foldlM_eq_append_flatMap heach]
      simp [bottomUp, id_entry, List.map_flatMap]

theorem node_of_mem_entries (hx : x ∈ node.entries below parent place depth) :
    ∃ (deep : List Level) (n : Node (Children deep)) (parent' : Option ControllerId)
      (place' : UInt32) (depth' : Nat), x = n.entry deep parent' place' depth' ∧
        (n.entries deep parent' place' depth').Sublist (node.entries below parent place depth) := by
  induction below generalizing parent place depth with
  | nil =>
      obtain rfl := List.mem_singleton.1 hx
      exact ⟨[], node, parent, place, depth, rfl, List.Sublist.refl _⟩
  | cons l below ih =>
      rcases mem_entries_cons.1 hx with rfl | ⟨e, he, hx⟩
      · exact ⟨l :: below, node, parent, place, depth, rfl, List.Sublist.refl _⟩
      · obtain ⟨deep, n, parent', place', depth', hentry, hall⟩ := ih hx
        refine ⟨deep, n, parent', place', depth', hentry, hall.trans ?_⟩
        have hin : (e.2.node.entries below (some node.controller.id) e.1 (depth + 1)).Sublist
            ((node.children : Table (Branch (Children below))).entries.flatMap fun e =>
              e.2.node.entries below (some node.controller.id) e.1 (depth + 1)) := by
          rw [List.flatMap_def]
          exact List.sublist_flatten_of_mem (List.mem_map_of_mem he)
        exact hin.cons _

theorem hangs_of_mem (hall : ∀ y ∈ node.entries below parent place depth, y ∈ xs)
    (hx : x ∈ node.entries below parent place depth) :
    Relation.ReflTransGen xs.Hangs x.id node.controller.id := by
  induction below generalizing parent place depth with
  | nil =>
      obtain rfl := List.mem_singleton.1 hx
      rw [id_entry]
  | cons l below ih =>
      rcases mem_entries_cons.1 hx with rfl | ⟨e, he, hx⟩
      · rw [id_entry]
      · have hbranch : ∀ y ∈ e.2.node.entries below (some node.controller.id) e.1 (depth + 1),
            y ∈ xs := fun y hy => hall y (mem_entries_cons.2 (.inr ⟨e, he, hy⟩))
        refine (ih hbranch hx).tail ⟨_, hbranch _ entry_mem_entries, id_entry, parent_entry⟩

theorem partitions_above {i : Nat} (h : node.Listed xs below) (hi : i < below.length) :
    xs.partitions ((node.controllersAt below i).map Controller.id) = [] := by
  induction below generalizing i with
  | nil => cases hi
  | cons l below ih =>
      cases i with
      | zero =>
          obtain ⟨parent, place, depth, hfind⟩ := h.find?
          have hinstances : (node.entry (l :: below) parent place depth).instances = [] := rfl
          simp [controllersAt, Arena.partitions, hfind, hinstances]
      | succ i =>
          rw [controllersAt, List.map_flatMap, Arena.partitions, List.flatMap_assoc]
          apply List.flatMap_eq_nil_iff.2
          intro e he
          exact ih (h.branch he) (Nat.lt_of_succ_lt_succ hi)

theorem partitions_last {path : Path} (h : node.Listed xs below) :
    xs.partitions ((node.controllersAt below below.length).map Controller.id) =
      (node.leaves below path).map fun ℓ => (ℓ.controller, ℓ.partition) := by
  induction below generalizing path with
  | nil =>
      obtain ⟨parent, place, depth, hfind⟩ := h.find?
      simp [controllersAt, Arena.partitions, hfind, leaves, entry, Function.comp_def]
  | cons l below ih =>
      rw [List.length_cons, controllersAt, List.map_flatMap, Arena.partitions, List.flatMap_assoc,
        leaves, List.map_flatMap]
      apply List.flatMap_congr
      intro e he
      exact ih (h.branch he)

theorem partitions_controllers {path : Path} (h : node.Listed xs below) :
    xs.partitions ((node.controllers below).map Controller.id) =
      (node.leaves below path).map fun ℓ => (ℓ.controller, ℓ.partition) := by
  have habove : (List.range below.length).flatMap
      (fun i => xs.partitions ((node.controllersAt below i).map Controller.id)) = [] :=
    List.flatMap_eq_nil_iff.2 fun i hi => partitions_above h (List.mem_range.1 hi)
  have hlast : xs.partitions ((node.controllersAt below below.length).map Controller.id) =
      (node.leaves below path).map fun ℓ => (ℓ.controller, ℓ.partition) := partitions_last h
  rw [Arena.partitions] at hlast ⊢
  rw [controllers, List.range_succ, List.flatMap_append, List.map_append, List.flatMap_append,
    List.map_flatMap, List.flatMap_assoc, List.flatMap_singleton, hlast]
  exact congrArg (· ++ _) habove

end Node

namespace Context

variable {c : Context} {x y : Entry} {root : Node (Children c.declaration.inner)} {strict : Prop}

structure Traversed (c : Context) : Prop where
  /-- From the root down: each live controller once, and none after one that hangs under it. -/
  downward : ∃ ids, Arena.EndsWith (Arena.topDown c.entries · c.rootId?.toList []) ids ∧
    ids = c.controllers.map Controller.id ∧ ids.Nodup ∧
    (∀ id, id ∈ ids ↔ ∃ x ∈ c.entries, x.id = id) ∧
    ids.Pairwise fun id later => ¬ Arena.Hangs c.entries id later
  /-- From the bottom up: each controller that hangs under the one given once, and none before one
  that hangs under it. -/
  under : ∀ x ∈ c.entries, ∃ ids, Arena.EndsWith (Arena.bottomUp c.entries · x.id []) ids ∧
    ids.Nodup ∧ (∀ id, id ∈ ids ↔ Relation.ReflTransGen (Arena.Hangs c.entries) id x.id) ∧
    ids.Pairwise fun id later => ¬ Arena.Hangs c.entries later id
  /-- Up to the root: as many controllers as the one given is levels deep, each hanging directly
  under the next. -/
  upward : ∀ x ∈ c.entries, ∃ ids, Arena.EndsWith (Arena.upward c.entries · x.id []) ids ∧
    ids.length = x.level ∧ x.level = x.depth ∧ ids.Nodup ∧ ids.head? = some x.id ∧
    ids.getLast? = c.rootId? ∧ ids.IsChain (Arena.Hangs c.entries)
  /-- From the root down, by partitions: each running instance once. -/
  partitions : ∃ ids, Arena.EndsWith (Arena.topDown c.entries · c.rootId?.toList []) ids ∧
    Arena.partitions c.entries ids = c.leaves.map (fun ℓ => (ℓ.controller, ℓ.partition)) ∧
    (Arena.partitions c.entries ids).Nodup ∧
    ∀ id p, (id, p) ∈ Arena.partitions c.entries ids ↔
      ∃ x ∈ c.entries, x.id = id ∧ ∃ r, (p, r) ∈ x.instances

theorem Arranged.eq_of_id (h : c.Arranged) (hx : x ∈ c.entries) (hy : y ∈ c.entries)
    (hid : x.id = y.id) : x = y :=
  List.inj_on_of_nodup_map h.ids hx hy hid

theorem Arranged.listed (h : c.Arranged) (hroot : c.root = some root) :
    root.Listed c.entries c.declaration.inner := by
  refine ⟨none, 0, 1, fun x hx => Arena.find?_of_mem h.ids ?_⟩
  rwa [entries_of_root hroot]

theorem Arranged.depth_of_hangs (h : c.Arranged) (hroot : c.root = some root) (hx : x ∈ c.entries)
    (hy : y ∈ c.entries) (hhangs : Arena.Hangs c.entries x.id y.id) : x.depth = y.depth + 1 := by
  obtain ⟨z, hz, hid, hparent⟩ := hhangs
  obtain rfl := h.eq_of_id hz hx hid
  rcases hangs_of_root hroot hz with rfl | ⟨p, hp, hparent', -, hdepth⟩
  · rw [Node.parent_entry] at hparent
    cases hparent
  · obtain rfl := h.eq_of_id hy hp (Option.some.inj (hparent.symm.trans hparent'))
    exact hdepth

theorem Arranged.topDown (h : c.Arranged) :
    Arena.EndsWith (Arena.topDown c.entries · c.rootId?.toList [])
      (c.controllers.map Controller.id) := by
  cases hroot : c.root with
  | none =>
      simp only [rootId?, controllers, hroot]
      exact Arena.endsWith_of_succ fun steps => rfl
  | some root =>
      have hlisted : ∀ n ∈ [root], n.Listed c.entries c.declaration.inner := by
        simpa using h.listed hroot
      have hwalk := Node.topDown_nodes hlisted []
      simp only [List.map_singleton, List.nil_append, List.flatMap_singleton] at hwalk
      simp only [rootId?, controllers, hroot, Node.controllers, List.map_flatMap]
      exact hwalk

theorem mem_controllers : ∀ id, id ∈ c.controllers.map Controller.id ↔
    ∃ x ∈ c.entries, x.id = id := by
  intro id
  constructor
  · intro hid
    cases hroot : c.root with
    | none => simp [controllers, hroot] at hid
    | some root =>
        simp only [controllers, hroot, Node.controllers, List.map_flatMap, List.mem_flatMap] at hid
        obtain ⟨i, -, hid⟩ := hid
        obtain ⟨x, hx, hxid, -⟩ := (Node.ids_controllersAt none 0 1).1 hid
        rw [← entries_of_root hroot] at hx
        exact ⟨x, hx, hxid⟩
  · rintro ⟨x, hx, rfl⟩
    exact List.mem_map_of_mem (f := Controller.id) (controller_mem_controllers hx)

theorem Arranged.pairwise_controllers (h : c.Arranged) :
    (c.controllers.map Controller.id).Pairwise fun id later =>
      id ≠ later ∧ ¬ Arena.Hangs c.entries id later := by
  cases hroot : c.root with
  | none => simp [controllers, hroot]
  | some root =>
      let layer (i : Nat) : List ControllerId :=
        (root.controllersAt c.declaration.inner i).map Controller.id
      have hlayer {i : Nat} {id : ControllerId} (hid : id ∈ layer i) :
          ∃ x ∈ c.entries, x.id = id ∧ x.depth = 1 + i := by
        rw [entries_of_root hroot]
        exact (Node.ids_controllersAt none 0 1).1 hid
      have hnot {i j : Nat} {a b : ControllerId} (hij : i ≤ j) (ha : a ∈ layer i)
          (hb : b ∈ layer j) : ¬ Arena.Hangs c.entries a b := by
        obtain ⟨x, hx, rfl, hxdepth⟩ := hlayer ha
        obtain ⟨y, hy, rfl, hydepth⟩ := hlayer hb
        intro hhangs
        have hdepth := h.depth_of_hangs hroot hx hy hhangs
        omega
      simp only [controllers, hroot, Node.controllers, List.map_flatMap]
      refine List.pairwise_flatMap.2 ⟨fun i _ => ?_, ?_⟩
      · have hnodup : (layer i).Nodup := by
          refine h.ids.sublist ?_
          rw [entries_of_root hroot]
          exact Node.controllersAt_sublist
        exact hnodup.imp_of_mem fun ha hb hne => ⟨hne, hnot (Nat.le_refl i) ha hb⟩
      · refine List.pairwise_lt_range.imp fun {i j} hij a ha b hb => ?_
        refine ⟨?_, hnot (Nat.le_of_lt hij) ha hb⟩
        rintro rfl
        obtain ⟨x, hx, hxid, hxdepth⟩ := hlayer ha
        obtain ⟨y, hy, hyid, hydepth⟩ := hlayer hb
        obtain rfl := h.eq_of_id hx hy (hxid.trans hyid.symm)
        omega

theorem Arranged.mem_of_hangs (h : c.Arranged) {deep : List Level} {n : Node (Children deep)}
    {parent : Option ControllerId} {place : UInt32} {depth : Nat}
    (hall : ∀ y ∈ n.entries deep parent place depth, y ∈ c.entries) {id : ControllerId}
    (hid : Relation.ReflTransGen (Arena.Hangs c.entries) id n.controller.id) :
    ∃ y ∈ n.entries deep parent place depth, y.id = id := by
  induction hid using Relation.ReflTransGen.head_induction_on with
  | refl => exact ⟨_, Node.entry_mem_entries, Node.id_entry⟩
  | head hstep _ ih =>
      obtain ⟨x, hx, rfl, hparent⟩ := hstep
      obtain ⟨y, hy, rfl⟩ := ih
      obtain ⟨p, hp, hpid, key, hlink⟩ := h.parents x hx y.id hparent
      obtain rfl := h.eq_of_id hp (hall y hy) hpid
      obtain ⟨z, hz, hzid, -⟩ := Node.linked_of_mem_entries hy hlink
      exact ⟨z, hz, hzid⟩

theorem Arranged.bottomUp (h : c.Arranged) (hx : x ∈ c.entries) :
    ∃ ids, Arena.EndsWith (Arena.bottomUp c.entries · x.id []) ids ∧ ids.Nodup ∧
      (∀ id, id ∈ ids ↔ Relation.ReflTransGen (Arena.Hangs c.entries) id x.id) ∧
      ids.Pairwise fun id later => ¬ Arena.Hangs c.entries later id := by
  cases hroot : c.root with
  | none => simp [entries, hroot] at hx
  | some root =>
      have hmem := hx
      rw [entries_of_root hroot] at hmem
      obtain ⟨deep, n, parent, place, depth, rfl, hall⟩ := Node.node_of_mem_entries hmem
      rw [← entries_of_root hroot] at hall
      have hlisted : ∀ y ∈ n.entries deep parent place depth, Arena.find? c.entries y.id = some y :=
        fun y hy => Arena.find?_of_mem h.ids (hall.subset hy)
      have hids : ((n.entries deep parent place depth).map Entry.id).Nodup :=
        h.ids.sublist (hall.map Entry.id)
      have hmem {id : ControllerId} : id ∈ (n.bottomUp deep parent place depth).map Entry.id ↔
          ∃ y ∈ n.entries deep parent place depth, y.id = id := by
        rw [(Node.bottomUp_perm.map Entry.id).mem_iff, List.mem_map]
      have habove : ∀ y ∈ n.entries deep parent place depth, parent ≠ some y.id := by
        rintro y hy rfl
        have hhangs : Arena.Hangs c.entries (n.entry deep (some y.id) place depth).id y.id :=
          ⟨_, hx, rfl, Node.parent_entry⟩
        have hdepth := h.depth_of_hangs hroot hx (hall.subset hy) hhangs
        have hle := Node.le_depth hy
        rw [Node.depth_entry] at hdepth
        omega
      rw [Node.id_entry]
      have hwalk : Arena.EndsWith (Arena.bottomUp c.entries · n.controller.id [])
          ([] ++ (n.bottomUp deep parent place depth).map Entry.id) :=
        ⟨deep.length + 1, fun steps hsteps => Node.bottomUp_of_listed hlisted hsteps⟩
      refine ⟨_, hwalk, (Node.bottomUp_perm.map Entry.id).nodup_iff.2 hids, fun id => ?_, ?_⟩
      · rw [List.nil_append, hmem]
        constructor
        · rintro ⟨y, hy, rfl⟩
          exact Node.hangs_of_mem (fun y hy => hall.subset hy) hy
        · exact h.mem_of_hangs fun y hy => hall.subset hy
      · rw [List.nil_append, List.pairwise_map]
        refine (Node.pairwise_bottomUp hids habove).imp_of_mem fun {y z} hy hz hne => ?_
        rintro ⟨z', hz', hid, hparent⟩
        have hin : z ∈ c.entries := hall.subset (Node.mem_bottomUp.1 hz)
        obtain rfl := h.eq_of_id hz' hin hid
        exact hne hparent

theorem Arranged.upward (h : c.Arranged) {level : Nat} (hx : x ∈ c.entries)
    (hlevel : x.level = level) (done : List ControllerId) :
    ∃ above, Arena.EndsWith (Arena.upward c.entries · x.id done) (done ++ x.id :: above) ∧
      above.length + 1 = level ∧ (x.id :: above).Nodup ∧ (x.id :: above).getLast? = c.rootId? ∧
      (x.id :: above).IsChain (Arena.Hangs c.entries) ∧
      ∀ y ∈ c.entries, y.id ∈ above → y.level < level := by
  induction level generalizing x done with
  | zero =>
      cases hparent : x.parent with
      | none =>
          have hone := h.rootLevel x hx hparent
          omega
      | some id =>
          obtain ⟨p, hp, rfl, -⟩ := h.parents x hx id hparent
          have hnext := h.levels x hx p hp hparent
          omega
  | succ level ih =>
      have hself : Arena.find? c.entries x.id = some x := Arena.find?_of_mem h.ids hx
      cases hparent : x.parent with
      | none =>
          have hone := h.rootLevel x hx hparent
          have hroot := (h.root x hx).1 hparent
          have hwalk (steps : Nat) :
              Arena.upward c.entries (steps + 1) x.id done = some (done ++ [x.id]) := by
            rw [Arena.upward, hself]
            simp [hparent]
          refine ⟨[], Arena.endsWith_of_succ hwalk, ?_, List.nodup_singleton _, hroot.symm,
            .singleton _, nofun⟩
          rw [List.length_nil]
          omega
      | some id =>
          obtain ⟨p, hp, rfl, -⟩ := h.parents x hx id hparent
          have hnext := h.levels x hx p hp hparent
          obtain ⟨above, hwalk, hlength, hnodup, hlast, hchain, hbound⟩ :=
            ih hp (by omega) (done ++ [x.id])
          have hless : ∀ y ∈ c.entries, y.id ∈ p.id :: above → y.level < level + 1 := by
            intro y hy hid
            rcases List.mem_cons.1 hid with hid | hid
            · obtain rfl := h.eq_of_id hy hp hid
              omega
            · exact Nat.lt_succ_of_lt (hbound y hy hid)
          have hnew : x.id ∉ p.id :: above := fun hmem => by
            have hlt := hless x hx hmem
            omega
          have hfirst (steps : Nat) : Arena.upward c.entries (steps + 1) x.id done =
              Arena.upward c.entries steps p.id (done ++ [x.id]) := by
            rw [Arena.upward, hself]
            simp [hparent]
          have hall : Arena.EndsWith (Arena.upward c.entries · x.id done)
              (done ++ x.id :: p.id :: above) := by
            simpa using hwalk.after hfirst
          refine ⟨p.id :: above, hall, ?_, List.nodup_cons.2 ⟨hnew, hnodup⟩, hlast, ?_, hless⟩
          · rw [List.length_cons, hlength]
          · exact List.isChain_cons_cons.2 ⟨⟨x, hx, rfl, hparent⟩, hchain⟩

theorem Arranged.partitions_controllers (h : c.Arranged) :
    Arena.partitions c.entries (c.controllers.map Controller.id) =
      c.leaves.map fun ℓ => (ℓ.controller, ℓ.partition) := by
  cases hroot : c.root with
  | none =>
      simp only [controllers, leaves, hroot]
      rfl
  | some root =>
      simp only [controllers, leaves, hroot]
      exact Node.partitions_controllers (h.listed hroot)

theorem Sound.level_eq (h : c.Sound strict) (hx : x ∈ c.entries) : x.level = x.depth := by
  cases hroot : c.root with
  | none => simp [entries, hroot] at hx
  | some root => exact ((h.tree root hroot).posted hroot hx).level

theorem nodup_leaves (h : c.Sound strict) :
    (c.leaves.map fun ℓ => (ℓ.controller, ℓ.partition)).Nodup := by
  apply List.Nodup.of_map Prod.snd
  rw [List.map_map]
  exact h.allocated.nodup_iff.1 c.books.ids.nodup_ids

theorem mem_leaves {id : ControllerId} {p : UInt32} :
    (id, p) ∈ c.leaves.map (fun ℓ => (ℓ.controller, ℓ.partition)) ↔
      ∃ x ∈ c.entries, x.id = id ∧ ∃ r, (p, r) ∈ x.instances := by
  cases hroot : c.root with
  | none => simp [leaves, entries, hroot]
  | some root =>
      rw [leaves_of_root hroot, entries_of_root hroot, List.mem_map]
      constructor
      · rintro ⟨ℓ, hℓ, heq⟩
        obtain ⟨rfl, rfl⟩ := Prod.mk.inj heq
        have hinstance : ∃ x ∈ root.entries c.declaration.inner none 0 1, x.id = ℓ.controller ∧
            (ℓ.partition, ℓ.running) ∈ x.instances := Node.instance_of_leaf hℓ
        obtain ⟨x, hx, hid, hi⟩ := hinstance
        exact ⟨x, hx, hid, ℓ.running, hi⟩
      · rintro ⟨x, hx, rfl, r, hr⟩
        have hleaf : ∃ ℓ ∈ root.leaves c.declaration.inner [],
            (ℓ.controller, ℓ.partition, ℓ.running) = (x.id, (p, r)) := Node.leaf_of_instance hx hr
        obtain ⟨ℓ, hℓ, heq⟩ := hleaf
        obtain ⟨hid, hi⟩ := Prod.mk.inj heq
        exact ⟨ℓ, hℓ, Prod.ext hid (congrArg Prod.fst hi)⟩

/-- The walks over the entries end. Each goes where the tree says, once and in order. -/
theorem entries_traversed (h : Reachable (fun _ => True) c) : c.Traversed := by
  have harranged : c.Arranged := entries_arranged h
  have hsound : c.Sound False := h.sound False.elim
  have hpartitions := harranged.partitions_controllers
  constructor
  · obtain ⟨hnodup, horder⟩ := List.pairwise_and_iff.1 harranged.pairwise_controllers
    exact ⟨_, harranged.topDown, rfl, hnodup, mem_controllers, horder⟩
  · exact fun x hx => harranged.bottomUp hx
  · intro x hx
    obtain ⟨above, hwalk, hlength, hnodup, hlast, hchain, -⟩ := harranged.upward hx rfl []
    exact ⟨_, hwalk, hlength, hsound.level_eq hx, hnodup, rfl, hlast, hchain⟩
  · refine ⟨_, harranged.topDown, hpartitions, ?_, fun id p => ?_⟩
    · rw [hpartitions]
      exact nodup_leaves hsound
    · rw [hpartitions]
      exact mem_leaves

theorem crowded_traversed :
    crowded.entries.map Entry.id = [⟨0⟩, ⟨1⟩, ⟨2⟩] ∧ crowded.leaves.length = 4 ∧
      crowded.Traversed := by
  have hattached : Reachable (fun _ => True) rostered := .step _ _ (.new ..) trivial
  have hreach : Reachable (fun _ => True) crowded :=
    .step _ _ (.step _ _ hattached trivial) trivial
  exact ⟨by decide +kernel, by decide +kernel, entries_traversed hreach⟩

end Context

end EventContexts
