import EventContexts.Proofs.Arena
import EventContexts.Proofs.Retention

namespace EventContexts

variable {below : List Level} {strict : Prop}

theorem Family.find?_key {id : ControllerId} {each : UInt32 × Child below → Prop} {brood : Brood}
    {t : Table (Child below)} (h : Family strict id each brood t) (hs : strict) {k : UInt32}
    {a : Child below} (hmem : (k, a) ∈ t.entries) :
    t.entries.find? (fun e => e.2.key = a.key) = some (k, a) := by
  obtain ⟨found, hfound⟩ : ∃ found, t.entries.find? (fun e => e.2.key = a.key) = some found :=
    Option.isSome_iff_exists.1 (List.find?_isSome.2 ⟨(k, a), hmem, decide_eq_true rfl⟩)
  have hkey : found.2.key = a.key := by simpa using List.find?_some hfound
  rw [hfound, h.key_inj hs (List.mem_of_find?_eq_some hfound) hmem hkey]

namespace Node

variable {Q : Leaf → Prop} {path : Path} {post : Post} {node : Node (Children below)}
  {parent : Option ControllerId} {place : UInt32} {depth : Nat} {course : List Entry}
  {keys : List Key} {p : UInt32} {r : Running}

/-- The keys lead from a node past the controllers of a course, one level deeper at each key, to a
partition that hangs under the last of them. -/
structure Leads (node : Node (Children below)) (parent : Option ControllerId) (place : UInt32)
    (depth : Nat) (course : List Entry) (keys : List Key) (p : UInt32) (r : Running) : Prop where
  head : course.head? = some (node.entry below parent place depth)
  entries : ∀ x ∈ course, x ∈ node.entries below parent place depth
  chain : course.IsChain fun x y => y.parent = some x.id
  steps : course.length = below.length + 1 ∧ keys.length = below.length + 1
  branches : ∀ i x y, course[i]? = some x → course[i + 1]? = some y →
    node.find? below (keys.take (i + 1)) = some (.branch x.id y.place y.id)
  leaf : ∃ x ∈ course.getLast?, (p, r) ∈ x.instances ∧
    node.find? below keys = some (.leaf x.id p r.generation)

theorem leads_leaf {node : Node (Children [])} (h : node.Sound Q strict [] path post)
    (hs : strict) (hmem : (p, r) ∈ (node.children : Table Running).entries) :
    node.Leads parent place depth [node.entry [] parent place depth] [r.key] p r := by
  have hfound := Family.find?_key h.tended.holds hs hmem
  constructor
  · rfl
  · exact fun x hx => hx
  · exact .singleton _
  · exact ⟨rfl, rfl⟩
  · intro i x y _ hy
    cases hy
  · refine ⟨_, rfl, hmem, ?_⟩
    exact congrArg (Option.map fun e : UInt32 × Running =>
      Handle.leaf node.controller.id e.1 e.2.generation) hfound

theorem Leads.under {l : Level} {node : Node (Children (l :: below))} {k : UInt32}
    {b : Branch (Children below)} (h : node.Sound Q strict (l :: below) path post) (hs : strict)
    (hmem : (k, b) ∈ (node.children : Table (Branch (Children below))).entries)
    (hb : b.node.Leads (some node.controller.id) k (depth + 1) course keys p r) :
    node.Leads parent place depth (node.entry (l :: below) parent place depth :: course)
      (b.key :: keys) p r := by
  let branches : Table (Branch (Children below)) := node.children
  have hfound : branches.entries.find? (fun e => e.2.key = b.key) = some (k, b) :=
    Family.find?_key h.tended.holds hs hmem
  have hdeeper {key : Key} {rest : List Key} :
      node.find? (l :: below) (b.key :: key :: rest) = b.node.find? below (key :: rest) := by
    simp only [Node.find?, branches] at hfound ⊢
    rw [hfound]
  obtain ⟨hhead, hentries, hchain, ⟨hcourse, hkeys⟩, hbranches, x, hx, hinstance, hleaf⟩ := hb
  obtain ⟨first, rest, rfl⟩ := List.exists_cons_of_length_eq_add_one hcourse
  obtain ⟨key, more, rfl⟩ := List.exists_cons_of_length_eq_add_one hkeys
  obtain rfl : first = b.node.entry below (some node.controller.id) k (depth + 1) :=
    Option.some.inj hhead
  constructor
  · rfl
  · intro y hy
    rcases List.mem_cons.1 hy with rfl | hy
    · exact entry_mem_entries
    · exact mem_entries_cons.2 (.inr ⟨(k, b), hmem, hentries y hy⟩)
  · refine .cons_cons ?_ hchain
    rw [parent_entry, id_entry]
  · exact ⟨congrArg (· + 1) hcourse, congrArg (· + 1) hkeys⟩
  · rintro (_ | i) y z hy hz
    · obtain rfl := Option.some.inj hy
      obtain rfl := Option.some.inj hz
      rw [place_entry, id_entry, id_entry]
      simp only [List.take_succ_cons, List.take_zero, Node.find?, branches] at hfound ⊢
      rw [hfound]
    · rw [List.take_succ_cons, List.take_succ_cons, hdeeper]
      exact hbranches i y z hy hz
  · refine ⟨x, ?_, hinstance, hdeeper.trans hleaf⟩
    rwa [List.getLast?_cons_cons]

theorem leads_of_mem_leaves (parent : Option ControllerId) (place : UInt32) (depth : Nat)
    (h : node.Sound Q strict below path post) (hs : strict) {ℓ : Leaf}
    (hℓ : ℓ ∈ node.leaves below path) : ∃ course keys, ℓ.path.keys = path.keys ++ keys ∧
      node.Leads parent place depth course keys ℓ.partition ℓ.running := by
  induction below generalizing path post parent place depth with
  | nil =>
      obtain ⟨⟨p, r⟩, hmem, rfl⟩ := List.mem_map.1 hℓ
      refine ⟨_, [r.key], ?_, leads_leaf h hs hmem⟩
      simp [Path.keys, step]
  | cons l below ih =>
      obtain ⟨⟨k, b⟩, hmem, hℓ⟩ := List.mem_flatMap.1 hℓ
      have hbranch := Child.sound_branch.1 (h.tended.holds.each (k, b) hmem)
      have hstep : node.step b.key b.properties = ⟨post.level, b.key, b.properties⟩ := by
        obtain ⟨rfl, -⟩ := h
        rfl
      rw [← hstep] at hbranch
      obtain ⟨course, keys, hkeys, hleads⟩ := ih (some node.controller.id) k (depth + 1) hbranch hℓ
      refine ⟨_, b.key :: keys, ?_, hleads.under h hs hmem⟩
      rw [hkeys]
      simp [Path.keys, step]

theorem mem_leaves_of_find? (path : Path) {id : ControllerId} {generation : Nat}
    (hfind : node.find? below keys = some (.leaf id p generation)) :
    ∃ ℓ ∈ node.leaves below path, ℓ.partition = p ∧ ℓ.path.keys = path.keys ++ keys := by
  induction below generalizing path keys with
  | nil =>
      let partitions : Table Running := node.children
      rcases keys with _ | ⟨key, _ | ⟨key', rest⟩⟩
      · cases hfind
      · obtain ⟨⟨q, r⟩, hfound, hhandle⟩ := Option.map_eq_some_iff.1 hfind
        obtain ⟨-, rfl, -⟩ := Handle.leaf.inj hhandle
        have hkey : r.key = key := by simpa using List.find?_some hfound
        refine ⟨_, List.mem_map_of_mem (List.mem_of_find?_eq_some hfound), rfl, ?_⟩
        simp [Path.keys, step, hkey]
      · cases hfind
  | cons l below ih =>
      let branches : Table (Branch (Children below)) := node.children
      rcases keys with _ | ⟨key, rest⟩
      · cases hfind
      · rw [Node.find?.eq_def] at hfind
        simp only at hfind
        split at hfind
        · cases hfind
        · next k b hfound =>
            have hkey : b.key = key := by simpa using List.find?_some hfound
            have hmem := List.mem_of_find?_eq_some hfound
            split at hfind
            · cases hfind
            · next key' rest' =>
                obtain ⟨ℓ, hℓ, hp, hkeys⟩ := ih (path ++ [node.step b.key b.properties]) hfind
                refine ⟨ℓ, List.mem_flatMap.2 ⟨(k, b), hmem, hℓ⟩, hp, ?_⟩
                rw [hkeys]
                simp [Path.keys, step, hkey]

end Node

namespace Context

variable {c : Context}

structure Descent (c : Context) (course : List Entry) : Prop where
  entries : ∀ x ∈ course, x ∈ c.entries
  root : ∀ x ∈ course.head?, x.parent = none
  chain : course.IsChain fun x y => y.parent = some x.id

theorem Sound.pathOf?_leaf (h : c.Sound strict) {ℓ : Leaf} (hℓ : ℓ ∈ c.leaves) :
    c.pathOf? ℓ.partition = some ℓ.path.keys := by
  let way : UInt32 × List Key := (ℓ.partition, ℓ.path.keys)
  have hway : way ∈ c.leaves.map fun ℓ => (ℓ.partition, ℓ.path.keys) := List.mem_map_of_mem hℓ
  rw [← ways_assignments] at hway
  exact h.pathOf?_eq hway

/-- The path of a partition is its address. It has one key for each level and leads to the live
partition, each shorter way leads to the controller that hangs there, and no other keys lead to the
partition. -/
structure Addressed (c : Context) : Prop where
  leads : ∀ p ∈ c.allocatedIds, ∃ course keys x r, c.Descent course ∧ course.length = c.depth ∧
    course.getLast? = some x ∧ (p, r) ∈ x.instances ∧
    c.pathOf? p = some keys ∧ keys.length = c.depth ∧
    c.find? keys = some (.leaf x.id p r.generation) ∧
    ∀ i y z, course[i]? = some y → course[i + 1]? = some z →
      c.find? (keys.take (i + 1)) = some (.branch y.id z.place z.id)
  led : ∀ keys controller p generation, c.find? keys = some (.leaf controller p generation) →
    c.pathOf? p = some keys

theorem paths_address_partitions (h : Reachable Operation.Regular c) : c.Addressed := by
  have hsound : c.Sound True := h.sound fun _ _ hop => hop
  constructor
  · intro p hp
    obtain ⟨ℓ, hℓ, rfl⟩ := List.mem_map.1 (hsound.allocated.mem_iff.1 hp)
    have hpath := hsound.pathOf?_leaf hℓ
    cases hroot : c.root with
    | none =>
        rw [leaves, hroot] at hℓ
        cases hℓ
    | some root =>
        obtain ⟨id, hs⟩ := hsound.tree root hroot
        rw [leaves_of_root hroot] at hℓ
        obtain ⟨course, keys, hkeys, hleads⟩ :=
          Node.leads_of_mem_leaves none 0 1 hs.manned trivial hℓ
        obtain ⟨hhead, hentries, hchain, ⟨hcourse, hlength⟩, hbranches, x, hx, hr, hleaf⟩ := hleads
        have hfind (ks : List Key) : c.find? ks = root.find? c.declaration.inner ks := by
          rw [find?, hroot]
          rfl
        refine ⟨course, keys, x, ℓ.running, ⟨?_, ?_, hchain⟩, hcourse, hx, hr, ?_, hlength, ?_, ?_⟩
        · rw [entries_of_root hroot]
          exact hentries
        · rw [hhead]
          rintro _ ⟨⟩
          exact Node.parent_entry
        · rw [hpath, hkeys]
          rfl
        · rw [hfind, hleaf]
        · intro i y z hy hz
          rw [hfind, hbranches i y z hy hz]
  · intro keys controller p generation hfind
    cases hroot : c.root with
    | none => simp [find?, hroot] at hfind
    | some root =>
        rw [find?, hroot] at hfind
        obtain ⟨ℓ, hℓ, rfl, hkeys⟩ := Node.mem_leaves_of_find? [] hfind
        rw [← leaves_of_root hroot] at hℓ
        rw [hsound.pathOf?_leaf hℓ, hkeys]
        rfl

theorem visited_paths_address_partitions :
    visited.pathOf? 0 = some [.keyed [.int 1], .episode 0 0] ∧ visited.Addressed :=
  ⟨rfl, paths_address_partitions reachable_visited⟩

end Context

end EventContexts
