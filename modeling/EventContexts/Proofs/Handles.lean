import EventContexts.Proofs.Arena
import EventContexts.Proofs.Upkeep

namespace EventContexts

open Act

def Handle.Given (b : Books) : Handle → Prop
  | .branch _ _ child => child.number < b.nextController
  | .leaf _ _ generation => generation < b.nextGeneration

def Handle.number : Handle → Number
  | .branch _ _ child => .controller child
  | .leaf _ _ generation => .generation generation

def Children.handles : {below : List Level} → ControllerId → Children below → List Handle
  | [], id, partitions =>
      let partitions : Table Running := partitions
      partitions.entries.flatMap fun (p, r) => [.leaf id p r.generation]
  | _ :: below, id, branches =>
      let branches : Table (Branch (Children below)) := branches
      branches.entries.flatMap fun (k, b) =>
        .branch id k b.node.controller.id :: handles b.node.controller.id b.node.children

def Child.handles (id : ControllerId) : {below : List Level} → UInt32 × Child below → List Handle
  | [], (p, r) => [.leaf id p (Running.generation r)]
  | _ :: _, (k, b) =>
      .branch id k (Branch.node b).controller.id ::
        (Branch.node b).children.handles (Branch.node b).controller.id

variable {below : List Level} {id : ControllerId} {h : Handle} {ω ε : Type} {W : ω → Prop}
  {b b' : Books}

namespace Children

variable {children children' : Children below} {k : UInt32}

theorem handles_eq (children : Children below) :
    children.handles id = children.table.entries.flatMap (Child.handles id) := by
  cases below <;> rfl

theorem mem_handles : h ∈ children.handles id ↔
    ∃ e ∈ children.table.entries, h ∈ Child.handles id e := by
  rw [handles_eq, List.mem_flatMap]

@[simp] theorem handles_empty : (Children.empty below).handles id = [] := by
  cases below <;> rfl

theorem handles_of_insert (children : Children below) (a : Child below)
    (hc : children'.table = children.table.insert k a)
    (hh : h ∈ children'.handles id) : h ∈ Child.handles id (k, a) ∨ h ∈ children.handles id := by
  obtain ⟨e, he, hh⟩ := mem_handles.1 hh
  rw [hc] at he
  rcases Table.mem_insert.1 he with rfl | ⟨he, -⟩
  · exact .inl hh
  · exact .inr (mem_handles.2 ⟨e, he, hh⟩)

theorem handles_of_erase (children : Children below) (hc : children'.table = children.table.erase k)
    (hh : h ∈ children'.handles id) : h ∈ children.handles id := by
  obtain ⟨e, he, hh⟩ := mem_handles.1 hh
  rw [hc] at he
  exact mem_handles.2 ⟨e, (Table.mem_erase.1 he).1, hh⟩

theorem number_of_handle (hh : h ∈ children.handles id) : h.number ∈ children.numbers := by
  induction below generalizing id with
  | nil =>
      obtain ⟨e, he, hh⟩ := mem_handles.1 hh
      obtain rfl := List.mem_singleton.1 hh
      refine List.mem_flatMap.2 ⟨e, he, ?_⟩
      exact List.mem_cons_of_mem _ (List.mem_cons_self ..)
  | cons m below ih =>
      obtain ⟨e, he, hh⟩ := mem_handles.1 hh
      refine List.mem_flatMap.2 ⟨e, he, ?_⟩
      rcases List.mem_cons.1 hh with rfl | hh
      · exact List.mem_cons_self ..
      · exact List.mem_cons_of_mem _ (ih hh)

end Children

theorem Node.mem_handles_entry {node : Node (Children below)} {parent : Option ControllerId}
    {place : UInt32} {depth : Nat} :
    h ∈ (node.entry below parent place depth).handles.map Prod.snd ↔
      ∃ e ∈ node.children.table.entries, h = e.2.handle node.controller.id e.1 := by
  rw [handles_entry, List.map_map, List.mem_map]
  exact ⟨fun ⟨e, he, heq⟩ => ⟨e, he, heq.symm⟩, fun ⟨e, he, heq⟩ => ⟨e, he, heq.symm⟩⟩

theorem Node.mem_handles_entries {node : Node (Children below)} {parent : Option ControllerId}
    {place : UInt32} {depth : Nat} :
    (∃ x ∈ node.entries below parent place depth, h ∈ x.handles.map Prod.snd) ↔
      h ∈ node.children.handles node.controller.id := by
  induction below generalizing parent place depth with
  | nil =>
      simp only [entries, List.mem_singleton, exists_eq_left, mem_handles_entry,
        Children.mem_handles]
      exact exists_congr fun e => and_congr_right fun _ => List.mem_singleton.symm
  | cons m below ih =>
      rw [Children.mem_handles]
      constructor
      · rintro ⟨x, hx, hh⟩
        rcases mem_entries_cons.1 hx with rfl | ⟨e, he, hx⟩
        · obtain ⟨e, he, rfl⟩ := mem_handles_entry.1 hh
          exact ⟨e, he, List.mem_cons_self ..⟩
        · exact ⟨e, he, List.mem_cons_of_mem _ (ih.1 ⟨x, hx, hh⟩)⟩
      · rintro ⟨e, he, hh⟩
        rcases List.mem_cons.1 hh with rfl | hh
        · exact ⟨_, entry_mem_entries, mem_handles_entry.2 ⟨e, he, rfl⟩⟩
        · obtain ⟨x, hx, hh⟩ := ih.2 hh
          exact ⟨x, mem_entries_cons.2 (.inr ⟨e, he, hx⟩), hh⟩

theorem Node.handle_of_mem_leaves {node : Node (Children below)} {path : Path} {ℓ : Leaf}
    (hℓ : ℓ ∈ node.leaves below path) :
    .leaf ℓ.controller ℓ.partition ℓ.running.generation ∈
      node.children.handles node.controller.id := by
  induction below generalizing path with
  | nil =>
      obtain ⟨e, he, rfl⟩ := List.mem_map.1 hℓ
      exact Children.mem_handles.2 ⟨e, he, List.mem_singleton_self _⟩
  | cons m below ih =>
      obtain ⟨e, he, hℓ⟩ := List.mem_flatMap.1 hℓ
      exact Children.mem_handles.2 ⟨e, he, List.mem_cons_of_mem _ (ih hℓ)⟩

theorem Node.leaf_of_mem_handles {node : Node (Children below)} {p : UInt32} {g : Nat}
    (path : Path) (hh : .leaf id p g ∈ node.children.handles node.controller.id) :
    ∃ ℓ ∈ node.leaves below path, ℓ.partition = p ∧ ℓ.running.generation = g := by
  induction below generalizing path with
  | nil =>
      obtain ⟨e, he, hh⟩ := Children.mem_handles.1 hh
      obtain ⟨-, rfl, rfl⟩ := Handle.leaf.inj (List.mem_singleton.1 hh)
      exact ⟨_, List.mem_map_of_mem he, rfl, rfl⟩
  | cons m below ih =>
      obtain ⟨e, he, hh⟩ := Children.mem_handles.1 hh
      rcases List.mem_cons.1 hh with hbranch | hh
      · cases hbranch
      · obtain ⟨ℓ, hℓ, hleaf⟩ := ih (path ++ [node.step e.2.key e.2.properties]) hh
        exact ⟨ℓ, List.mem_flatMap.2 ⟨e, he, hℓ⟩, hleaf⟩

theorem handles_of_visited {t t' : Table (Child below)} (ht : List.Forall₂ (fun e e' =>
      e.1 = e'.1 ∧ Child.handles id (e.1, e'.2) = Child.handles id e) t.entries t'.entries) :
    t'.entries.flatMap (Child.handles id) = t.entries.flatMap (Child.handles id) := by
  refine (List.Forall₂.flatMap_eq (ht.imp ?_)).symm
  rintro ⟨k, a⟩ ⟨_, a'⟩ ⟨rfl, ha⟩
  exact ha.symm

theorem Node.traverseLeaves_handles {f : Leaf → ω → Except ε Running × ω}
    (hf : ∀ ℓ w, W w →
      Ends (fun r w => r.generation = ℓ.running.generation ∧ W w) (fun _ => W) (f ℓ w))
    (node : Node (Children below)) (path : Path) {w : ω} (hw : W w) :
    Ends (fun n w => (n.controller = node.controller ∧
        n.children.handles node.controller.id = node.children.handles node.controller.id) ∧ W w)
      (fun _ => W) (node.traverseLeaves f below path w) := by
  induction below generalizing path w with
  | nil =>
      let visit (p : UInt32) (r : Running) : ω → Except ε Running × ω :=
        f ⟨path ++ [node.step r.key r.properties], node.controller.id, p, r⟩
      have hvisit : ∀ e ∈ node.children.table.entries, ∀ w, W w →
          Ends (fun (r : Child []) w => Child.handles node.controller.id (e.1, r) =
            Child.handles node.controller.id e ∧ W w) (fun _ => W) (visit e.1 e.2 w) := by
        intro e _ w hw
        refine (hf _ w hw).imp (fun r w' hr => ⟨?_, hr.2⟩) fun _ _ hw' => hw'
        exact congrArg (fun g => [Handle.leaf node.controller.id e.1 g]) hr.1
      have hdone := Table.traverse_ends hvisit hw
      simp only [traverseLeaves]
      split
      · next t' w' heq =>
          obtain ⟨ht, hw'⟩ := hdone.congr heq
          exact ⟨⟨rfl, handles_of_visited ht⟩, hw'⟩
      · next why w' heq => exact hdone.congr heq
  | cons m below ih =>
      let visit (_ : UInt32) (b : Branch (Children below)) :
          ω → Except ε (Branch (Children below)) × ω :=
        b.visit (traverseLeaves f below (path ++ [node.step b.key b.properties]))
      have hvisit : ∀ e ∈ node.children.table.entries, ∀ w, W w →
          Ends (fun (b : Child (m :: below)) w => Child.handles node.controller.id (e.1, b) =
            Child.handles node.controller.id e ∧ W w) (fun _ => W) (visit e.1 e.2 w) := by
        intro e _ w hw
        refine Branch.visit_ends
          ((ih e.2.node _ hw).imp (fun n w' hn => ⟨?_, hn.2⟩) fun _ _ hw' => hw')
        obtain ⟨⟨hcontroller, hchildren⟩, -⟩ := hn
        simp only [Child.handles, hcontroller, hchildren]
      have hdone := Table.traverse_ends hvisit hw
      simp only [traverseLeaves]
      split
      · next t' w' heq =>
          obtain ⟨ht, hw'⟩ := hdone.congr heq
          exact ⟨⟨rfl, handles_of_visited ht⟩, hw'⟩
      · next why w' heq => exact hdone.congr heq

theorem Handle.Given.advances (hh : h.Given b) (hb : b.Advances b') : h.Given b' := by
  cases h with
  | branch parent path child => exact Nat.lt_of_lt_of_le hh hb.controllers
  | leaf controller partition generation => exact Nat.lt_of_lt_of_le hh hb.generations

namespace Setting

variable {env : Setting} {x : Books × (Handle → Prop)} {post : Post}

/-- The books have moved on from the first part of `x`, and what lives is of its second part or
has been given a new number since. -/
structure Issued (x : Books × (Handle → Prop)) (below : List Level) (post : Post)
    (s : Children below × Books) : Prop where
  advances : x.1.Advances s.2
  handles : ∀ h ∈ s.1.handles post.id, x.2 h ∨ ¬ h.Given x.1

theorem startPartition_issued {path : Path} {owner : Controller} {r : Request} :
    Keeps (Issued x [] owner.post) (env.startPartition owner path r) := by
  rintro ⟨partitions, b⟩ ⟨hb, hold⟩
  let partitions : Table Running := partitions
  let children : Children [] := partitions
  have hinsert {p : UInt32} {running : Running} {b : Books} (hb : x.1.Advances b)
      (hnew : running.generation = b.nextGeneration) :
      Issued x [] owner.post (partitions.insert p running,
        ({ b with nextGeneration := b.nextGeneration + 1 }.count
          Metrics.countCreated).updateGauge) := by
    let a : Child [] := running
    refine ⟨(hb.nextGeneration.count _).updateGauge, fun h hh => ?_⟩
    rcases Children.handles_of_insert children a rfl hh with hh | hh
    · obtain rfl := List.mem_singleton.1 hh
      exact .inr (Nat.not_lt.2 (hnew.symm ▸ hb.generations))
    · exact hold h hh
  simp only [startPartition]
  split
  · exact ⟨hb, hold⟩
  · have hclaim : Keeps (Books.Advances x.1) (env.claim r.assigned) := Books.keeps_claim
    split
    · next e b₁ heq => exact ⟨(hclaim b hb).congr heq, hold⟩
    · next p b₁ heq =>
        have hb₁ : x.1.Advances b₁ := (hclaim b hb).congr heq
        have hstart : Keeps (Books.Advances x.1)
            (env.startAgents (path ++ [⟨owner.level, r.key, capture r⟩]) p r.recovered.isSome
              env.statements []) := fun _ h => ends_of_state (h.noted Books.notes_startAgents)
        split
        · next e b₂ heq =>
            have hb₂ : x.1.Advances b₂ := (hstart b₁ hb₁).congr heq
            exact ⟨hb₂.release p, hold⟩
        · next agents b₂ heq =>
            have hb₂ : x.1.Advances b₂ := (hstart b₁ hb₁).congr heq
            cases htrigger : r.trigger with
            | none => exact hinsert hb₂ rfl
            | some e => exact hinsert (hb₂.noted Books.notes_offerAll) rfl

theorem endChild_issued {h : Handle} {termination : Option Props} :
    Keeps (Issued x below post) (env.endChild termination below id h) := by
  rintro ⟨children, b⟩ ⟨hb, hold⟩
  by_cases hlive : ∃ e ∈ children.table.entries, h = e.2.handle id e.1
  · obtain ⟨⟨k, a⟩, hmem, rfl⟩ := hlive
    have hclosed : x.1.Advances (env.closeChild termination (k, a) b).2 := by
      cases below with
      | nil => exact (Books.Advances.closePartition hb).updateGauge
      | cons m below => exact Books.Advances.closeAll hb
    rw [endChild_live hmem]
    exact ends_of_state ⟨hclosed, fun g hg =>
      hold g (Children.handles_of_erase children children.table_erase hg)⟩
  · rw [endChild_stale hlive]
    exact ⟨hb, hold⟩

theorem issued_upkeep (env : Setting) : env.Upkeep (fun _ _ => True) Issued where
  suits _ := trivial
  number hs := ⟨hs.advances.nextController, hs.handles⟩
  partition _ := startPartition_issued
  sprout {x post m below r branches b} _ hs _ := by
    let children : Children (m :: below) := branches
    refine ⟨x, ⟨hs.advances.nextController, by simp⟩, fun node b' hpost hnode => ⟨?_, ?_⟩⟩
    · let branch : Branch (Children below) := ⟨r.key, r.properties, node⟩
      let a : Child (m :: below) := branch
      refine ⟨hnode.advances, fun h hh => ?_⟩
      rcases Children.handles_of_insert children a rfl hh with hh | hh
      · rcases List.mem_cons.1 hh with rfl | hh
        · have hid : node.controller.id = ⟨b.nextController⟩ := congrArg Post.id hpost
          refine .inr (Nat.not_lt.2 ?_)
          rw [hid]
          exact hs.advances.controllers
        · exact hnode.handles h hh
      · exact hs.handles h hh
    · exact ⟨hnode.advances.closeAll, hs.handles⟩
  stop := endChild_issued
  descend {x post m below k branch branches b} hs hmem := by
    let children : Children (m :: below) := branches
    let e : UInt32 × Child (m :: below) := (k, branch)
    have hunder {h : Handle} (hh : h ∈ Child.handles post.id e) : x.2 h ∨ ¬ h.Given x.1 :=
      hs.handles h (Children.mem_handles.2 ⟨e, hmem, hh⟩)
    refine ⟨x, ⟨hs.advances, fun h hh => hunder (List.mem_cons_of_mem _ hh)⟩,
      fun node b' hpost hnode => ⟨hnode.advances, fun h hh => ?_⟩⟩
    let branch' : Branch (Children below) := { branch with node }
    let a : Child (m :: below) := branch'
    rcases Children.handles_of_insert children a rfl hh with hh | hh
    · rcases List.mem_cons.1 hh with rfl | hh
      · have hid : node.controller.id = branch.node.controller.id := congrArg Post.id hpost
        rw [hid]
        exact hunder (List.mem_cons_self ..)
      · exact hnode.handles h hh
    · exact hs.handles h hh
  offer {x post p r partitions b e} hs hmem := by
    let children : Children [] := partitions
    let running : Running := { r with agents := r.agents.map fun a => a.evaluate e }
    let a : Child [] := running
    refine ⟨hs.advances.noted Books.notes_offerAll, fun h hh => ?_⟩
    rcases Children.handles_of_insert children a rfl hh with hh | hh
    · exact hs.handles h (Children.mem_handles.2 ⟨(p, r), hmem, hh⟩)
    · exact hs.handles h hh

end Setting

end EventContexts
