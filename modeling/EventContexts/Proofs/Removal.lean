import EventContexts.Proofs.Atomicity
import EventContexts.Proofs.Stops
import EventContexts.Proofs.Subtrees

namespace EventContexts

namespace Setting

variable {below : List Level} {k : UInt32} {a : Child below}
  {b : Books} {termination : Option Props}

theorem closeChild_stops (env : Setting) (owner : Controller) (path : Path) :
    Books.Stops env.runtime false ((Child.leaves owner path (k, a)).flatMap fun ℓ =>
        ℓ.running.agents.map fun a => a.withTermination termination) b
      (env.closeChild termination (k, a) b) := by
  cases below with
  | nil =>
      let r : Running := a
      have hclose : Books.Stops env.runtime false
          (r.agents.map fun a => a.withTermination termination) b
          (env.closePartition termination false (k, r.agents) b) :=
        .closePartition env termination (k, r.agents) b
      rw [Child.leaves, List.flatMap_singleton]
      exact hclose.congr rfl rfl rfl
  | cons l below => exact Books.Stops.closeAll env termination _ _ b

end Setting

namespace Context

variable {c c' : Context} {h : Handle}

def ParentOf (c : Context) (p id : ControllerId) : Prop :=
  ∃ x ∈ c.entries, x.parent = some p ∧ x.id = id

def Under (c : Context) : Handle → ControllerId → Prop
  | .branch _ _ child, id => Relation.ReflTransGen c.ParentOf child id
  | .leaf .., _ => False

def Loses (c : Context) (h : Handle) (ℓ : Leaf) : Prop :=
  h = .leaf ℓ.controller ℓ.partition ℓ.running.generation ∨ c.Under h ℓ.controller

open Classical in
noncomputable def losing (c : Context) (h : Handle) : List Leaf := c.leaves.filter (c.Loses h)

noncomputable def stopping (c : Context) (h : Handle) (termination : Option Props) : List Agent :=
  (c.losing h).flatMap fun ℓ => ℓ.running.agents.map fun a => a.withTermination termination

section subtree

variable {root : Node (Children c.declaration.inner)} {strict : Prop} {below : List Level}
  {parent : Option ControllerId} {place : UInt32} {depth : Nat} {path : Path} {owner : Controller}
  {k : UInt32} {a : Child below} {x : Entry} {ℓ : Leaf}

variable (hc : c.Sound strict) (hroot : c.root = some root)

include hc hroot

variable {root' : Node (Children c.declaration.inner)} {n : Node (Children below)}
  (hmem : (k, a) ∈ n.children.table.entries)
  (hgraft : Node.Graft n (n.without (a.handle n.controller.id k)) path c.declaration.inner []
    root root')

include hmem hgraft

omit hc in
theorem leaves_without :
    ∃ pre post, c.leaves = pre ++ Child.leaves n.controller path (k, a) ++ post ∧
      root'.leaves c.declaration.inner [] = pre ++ post := by
  obtain ⟨before, after, hold, hnew⟩ := hgraft.leaves
  obtain ⟨pre, post, hn, hn'⟩ := Node.leaves_without hmem path
  refine ⟨before ++ pre, post ++ after, ?_, ?_⟩
  · rw [leaves_of_root hroot, hold, hn]
    simp
  · rw [hnew, hn']
    simp

end subtree

theorem Sound.terminate_live {strict : Prop} (hc : c.Sound strict) (hlive : c.Denotes h)
    (runtime : Runtime) (termination : Option Props) :
    ∃ (root root' : Node (Children c.declaration.inner)) (below : List Level) (path : Path)
      (n : Node (Children below)) (k : UInt32) (a : Child below),
      c.root = some root ∧ (k, a) ∈ n.children.table.entries ∧ h = a.handle n.controller.id k ∧
      Node.Graft n (n.without h) path c.declaration.inner [] root root' ∧
      terminate runtime h termination c =
        (((c.setting runtime).closeChild termination (k, a) c.books).1,
          { c with root := some root'
                   books := ((c.setting runtime).closeChild termination (k, a) c.books).2 }) := by
  obtain ⟨x, hx, hh⟩ := hlive
  rcases atController_cases c h.owner (fun below _ => (c.setting runtime).endAt h termination below)
    (.ok (), c) with ⟨-, hnone⟩ | ⟨root, root', below, path, n, hroot, hid, hgraft, heq⟩
  · exact absurd (Entry.owner_of_mem_handles hh) (hnone x hx)
  · obtain ⟨parent, place, depth, hentry⟩ := hgraft.entry_mem none 0 1
    rw [← entries_of_root hroot] at hentry
    have hsame : x.id = (n.entry below parent place depth).id :=
      (Entry.owner_of_mem_handles hh).trans (hid.symm.trans Node.id_entry.symm)
    obtain rfl := (hc.tree root hroot).eq_of_id hroot hx hentry hsame
    obtain ⟨⟨k, a⟩, hmem, rfl⟩ := Node.mem_handles_entry.1 hh
    rw [Setting.endAt_live hmem] at hgraft heq
    exact ⟨root, root', below, path, n, k, a, hroot, hmem, rfl, hgraft, heq⟩

def crowded : Context :=
  let later : Event := { type := "Page", data := OrderedMap.ofPairs [("user", .int 2)] }
  (perform .collecting (.process later) (perform .collecting (.process page) rostered).2).2

def leaving : Handle := .branch ⟨0⟩ 0 ⟨1⟩

end Context

end EventContexts
