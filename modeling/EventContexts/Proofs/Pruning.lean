import EventContexts.Proofs.Removal
import EventContexts.Proofs.Tables

namespace EventContexts

theorem Scheme.forget_comm {s : Scheme} {g h : Handle} :
    (s.forget g).forget h = (s.forget h).forget g := by
  have hwithout (children : Brood) :
      without h (without g children) = without g (without h children) := by
    simp only [without, OrderedMap.filter, List.filter_filter, Bool.and_comm]
  cases s with
  | temporal c =>
      rcases hc : c.child with _ | ⟨k, i⟩
      · simp only [forget, hc]
      · by_cases hg : i = g
        · subst hg
          by_cases hh : i = h <;> simp [forget, hc, hh]
        · by_cases hh : i = h
          · subst hh
            simp [forget, hc, hg]
          · simp [forget, hc, hg, hh]
  | _ => simp only [forget, hwithout]

def Branch.map {γ : Type} (f : Node γ → Node γ) (b : Branch γ) : Branch γ :=
  { b with node := f b.node }

namespace Node

variable {l : Level} {below deep : List Level} {g h : Handle} {way path : Path}

section pare

variable {node : Node (Children below)}

def pare (h : Handle) (node : Node (Children below)) : Node (Children below) :=
  if Setting.holds below node.children node.controller.id h then node.without h else node

theorem id_pare : (node.pare h).controller.id = node.controller.id := by
  rw [pare]
  split <;> rfl

theorem pare_live {k : UInt32} {a : Child below} (hmem : (k, a) ∈ node.children.table.entries) :
    node.pare (a.handle node.controller.id k) = node.without (a.handle node.controller.id k) :=
  if_pos (Children.holds_iff.2 ⟨_, hmem, rfl⟩)

theorem pare_stale
    (hstale : ¬ ∃ e ∈ node.children.table.entries, h = e.2.handle node.controller.id e.1) :
    node.pare h = node :=
  if_neg fun hh => hstale (Children.holds_iff.1 hh)

theorem mem_without {e : UInt32 × Child below} :
    e ∈ (node.without h).children.table.entries ↔
      e ∈ node.children.table.entries ∧ e.1 ≠ h.id := by
  rw [without, Children.table_erase, Table.mem_erase]

theorem mem_of_pare {e : UInt32 × Child below} (he : e ∈ (node.pare h).children.table.entries) :
    e ∈ node.children.table.entries := by
  rw [pare] at he
  split at he
  · exact (mem_without.1 he).1
  · exact he

theorem without_comm : (node.without g).without h = (node.without h).without g := by
  have hcontroller : (node.controller.forget g).forget h = (node.controller.forget h).forget g :=
    congrArg (fun s => { node.controller with scheme := s }) Scheme.forget_comm
  have hchildren : (node.children.erase g.id).erase h.id =
      (node.children.erase h.id).erase g.id := by
    cases below <;> exact Table.erase_comm
  rw [without, without, without, without, hcontroller, hchildren]

theorem pare_comm : (node.pare g).pare h = (node.pare h).pare g := by
  by_cases hg : ∃ e ∈ node.children.table.entries, g = e.2.handle node.controller.id e.1
  · obtain ⟨⟨k, a⟩, hk, rfl⟩ := hg
    by_cases hh : ∃ e ∈ node.children.table.entries, h = e.2.handle node.controller.id e.1
    · obtain ⟨⟨l, b⟩, hl, rfl⟩ := hh
      by_cases hkl : k = l
      · subst hkl
        rw [Table.eq_of_mem hk hl]
      · have hk' : (k, a) ∈ (node.without (b.handle node.controller.id l)).children.table.entries :=
          mem_without.2 ⟨hk, by rwa [Child.id_handle]⟩
        have hl' : (l, b) ∈ (node.without (a.handle node.controller.id k)).children.table.entries :=
          mem_without.2 ⟨hl, by rw [Child.id_handle]; exact Ne.symm hkl⟩
        rw [pare_live hk, pare_live hl]
        exact (pare_live hl').trans (without_comm.trans (pare_live hk').symm)
    · rw [pare_stale hh, pare_live hk]
      exact pare_stale fun ⟨e, he, heq⟩ => hh ⟨e, (mem_without.1 he).1, heq⟩
  · rw [pare_stale hg]
    refine (pare_stale fun ⟨e, he, heq⟩ => hg ⟨e, mem_of_pare he, ?_⟩).symm
    rw [heq, id_pare]

end pare

section branches

variable {node : Node (Children (l :: below))}
  {f f' : Node (Children below) → Node (Children below)}

def mapBranches (f : Node (Children below) → Node (Children below))
    (node : Node (Children (l :: below))) : Node (Children (l :: below)) :=
  let branches : Table (Branch (Children below)) := node.children
  { node with children := branches.map (Branch.map f) }

theorem mapBranches_mapBranches :
    (node.mapBranches f).mapBranches f' = node.mapBranches fun n => f' (f n) := by
  let branches : Table (Branch (Children below)) := node.children
  have hmap : (branches.map (Branch.map f)).map (Branch.map f') =
      branches.map (Branch.map fun n => f' (f n)) := Table.map_map
  exact congrArg (fun c : Children (l :: below) => { node with children := c }) hmap

theorem mapBranches_eq_self
    (h : ∀ e ∈ (node.children : Table (Branch (Children below))).entries, f e.2.node = e.2.node) :
    node.mapBranches f = node := by
  let branches : Table (Branch (Children below)) := node.children
  have hmap : branches.map (Branch.map f) = branches :=
    Table.map_eq_self fun e he => congrArg (fun n => { e.2 with node := n }) (h e he)
  exact congrArg (fun c : Children (l :: below) => { node with children := c }) hmap

theorem pare_mapBranches (hf : ∀ n, (f n).controller.id = n.controller.id) :
    (node.mapBranches f).pare h = (node.pare h).mapBranches f := by
  let branches : Table (Branch (Children below)) := node.children
  have herase : (node.mapBranches f).without h = (node.without h).mapBranches f := by
    have hmap : (branches.map (Branch.map f)).erase h.id =
        (branches.erase h.id).map (Branch.map f) := Table.erase_map
    exact congrArg (fun c : Children (l :: below) =>
      ({ controller := node.controller.forget h, children := c } : Node (Children (l :: below))))
      hmap
  have hhandle (e : UInt32 × Branch (Children below)) :
      Handle.branch node.controller.id e.1 (e.2.map f).node.controller.id =
        .branch node.controller.id e.1 e.2.node.controller.id :=
    congrArg (Handle.branch node.controller.id e.1) (hf e.2.node)
  by_cases hlive : ∃ e ∈ node.children.table.entries, h = e.2.handle node.controller.id e.1
  · obtain ⟨⟨k, b⟩, hmem, rfl⟩ := hlive
    let b' : Child (l :: below) := Branch.map f b
    have hmem' : (k, b') ∈ (node.mapBranches f).children.table.entries :=
      List.mem_map_of_mem (f := fun e => (e.1, Branch.map f e.2)) hmem
    have hh : b'.handle node.controller.id k = Child.handle node.controller.id k b := hhandle (k, b)
    rw [pare_live hmem, ← herase, ← hh]
    exact pare_live hmem'
  · rw [pare_stale hlive]
    refine pare_stale fun ⟨e', he', heq⟩ => hlive ?_
    obtain ⟨e, he, rfl⟩ := List.mem_map.1 he'
    exact ⟨e, he, heq.trans (hhandle e)⟩

end branches

def prune (h : Handle) : (below : List Level) → Node (Children below) → Node (Children below)
  | [], node => node.pare h
  | _ :: below, node => (node.pare h).mapBranches (prune h below)

theorem id_prune {node : Node (Children below)} :
    (node.prune h below).controller.id = node.controller.id := by
  cases below with
  | nil => exact id_pare
  | cons l below => exact id_pare

theorem prune_comm {node : Node (Children below)} :
    (node.prune g below).prune h below = (node.prune h below).prune g below := by
  induction below with
  | nil => exact pare_comm
  | cons l below ih =>
      simp only [prune, pare_mapBranches fun _ => id_prune, mapBranches_mapBranches, pare_comm, ih]

theorem prune_of_not_mem {node : Node (Children below)}
    (hstale : h ∉ node.children.handles node.controller.id) : node.prune h below = node := by
  induction below with
  | nil =>
      refine pare_stale fun ⟨e, he, heq⟩ => hstale (Children.mem_handles.2 ⟨e, he, ?_⟩)
      exact List.mem_singleton.2 heq
  | cons l below ih =>
      have hown : node.pare h = node := by
        refine pare_stale fun ⟨e, he, heq⟩ => hstale (Children.mem_handles.2 ⟨e, he, ?_⟩)
        exact List.mem_cons.2 (.inl heq)
      rw [prune, hown]
      refine mapBranches_eq_self fun e he => ih fun hmem => hstale ?_
      exact Children.mem_handles.2 ⟨e, he, List.mem_cons_of_mem _ hmem⟩

theorem owner_mem_ids {node : Node (Children below)}
    (hh : h ∈ node.children.handles node.controller.id) {parent : Option ControllerId}
    {place : UInt32} {depth : Nat} :
    h.owner ∈ (node.entries below parent place depth).map Entry.id := by
  obtain ⟨x, hx, hmem⟩ := mem_handles_entries.2 hh
  exact List.mem_map.2 ⟨x, hx, Entry.owner_of_mem_handles hmem⟩

theorem prune_of_graft {n : Node (Children deep)} {node node' : Node (Children below)}
    {k : UInt32} {a : Child deep} (hmem : (k, a) ∈ n.children.table.entries)
    (hgraft : Graft n (n.without (a.handle n.controller.id k)) way below path node node')
    {parent : Option ControllerId} {place : UInt32} {depth : Nat}
    (hids : ((node.entries below parent place depth).map Entry.id).Nodup) :
    node' = node.prune (a.handle n.controller.id k) below := by
  have howner : (a.handle n.controller.id k).owner = n.controller.id := Child.owner_handle
  induction hgraft generalizing parent place depth with
  | here =>
      cases deep with
      | nil => exact (pare_live hmem).symm
      | cons l deep =>
          rw [Node.prune, pare_live hmem]
          refine (mapBranches_eq_self fun e he => prune_of_not_mem fun hunder => ?_).symm
          rw [entries, List.map_cons, List.nodup_cons, List.map_flatMap, id_entry] at hids
          have he : e ∈ (n.without (a.handle n.controller.id k)).children.table.entries := he
          refine hids.1 (List.mem_flatMap.2 ⟨e, (mem_without.1 he).1, ?_⟩)
          rw [← howner]
          exact owner_mem_ids hunder
  | @under l below path node i branch m hbranch hgraft ih =>
      let branches : Table (Branch (Children below)) := node.children
      obtain ⟨hself, hnodup, halone⟩ := hgraft.alone hbranch hids
      have hown : node.pare (a.handle n.controller.id k) = node := by
        refine pare_stale ?_
        rintro ⟨e, he, heq⟩
        exact hself (howner.symm.trans ((congrArg Handle.owner heq).trans Child.owner_handle))
      have hothers : ∀ e ∈ branches.entries, e.1 ≠ i →
          e.2.map (Node.prune (a.handle n.controller.id k) below) = e.2 := by
        intro e he hne
        have hsame : e.2.node.prune (a.handle n.controller.id k) below = e.2.node := by
          refine prune_of_not_mem fun hmem => hne ?_
          exact congrArg Prod.fst (halone e he (howner ▸ owner_mem_ids hmem))
        exact congrArg (fun n => { e.2 with node := n }) hsame
      have hm : m = branch.node.prune (a.handle n.controller.id k) below := ih hnodup
      have hmap := Table.map_eq_insert hbranch hothers
      rw [Node.prune, hown, hm]
      exact congrArg (fun c : Children (l :: below) => { node with children := c }) hmap.symm

end Node

namespace Context

variable {c c' c'' : Context} {g h : Handle} {termination : Option Props} {strict : Prop}
  {stopped stopped' : List Agent}

structure Sheds (termination : Option Props) (stopped : List Agent) (c c' : Context) : Prop where
  trace : c'.books.trace =
    c.books.trace ++ stopped.map fun a => .stopped (a.withTermination termination) false
  agents : c.agents.Perm (stopped ++ c'.agents)
  controllers : c'.books.nextController = c.books.nextController
  generations : c'.books.nextGeneration = c.books.nextGeneration

theorem Sheds.refl (termination : Option Props) (c : Context) : c.Sheds termination [] c :=
  ⟨(List.append_nil _).symm, List.Perm.refl _, rfl, rfl⟩

theorem Sheds.trans (h : c.Sheds termination stopped c') (h' : c'.Sheds termination stopped' c'') :
    c.Sheds termination (stopped ++ stopped') c'' where
  trace := by rw [h'.trace, h.trace, List.map_append, List.append_assoc]
  agents := by
    rw [List.append_assoc]
    exact h.agents.trans (h'.agents.append_left stopped)
  controllers := h'.controllers.trans h.controllers
  generations := h'.generations.trans h.generations

def pruned (h : Handle) (c : Context) : Context :=
  { c with root := c.root.map fun root => root.prune h _ }

theorem pruned_comm : (c.pruned g).pruned h = (c.pruned h).pruned g := by
  simp only [pruned, Option.map_map, Function.comp_def, Node.prune_comm]

theorem pruned_of_stale (hstale : ¬ c.Denotes h) : c.pruned h = c := by
  cases hroot : c.root with
  | none =>
      rw [pruned, hroot, Option.map_none, ← hroot]
  | some root =>
      have hsame : root.prune h _ = root :=
        Node.prune_of_not_mem fun hmem => hstale ((denotes_iff hroot).2 hmem)
      rw [pruned, hroot, Option.map_some, hsame, ← hroot]

/-- What is left when a child has ended does not depend on how the stops went. -/
theorem Sound.terminate_prunes (hc : c.Sound strict) (runtime : Runtime) (h : Handle)
    (termination : Option Props) :
    ∃ books stopped, (terminate runtime h termination c).2 = { c.pruned h with books } ∧
      c.Sheds termination stopped { c.pruned h with books } := by
  by_cases hlive : c.Denotes h
  · obtain ⟨root, root', below, path, n, k, a, hroot, hmem, rfl, hgraft, heq⟩ :=
      hc.terminate_live hlive runtime termination
    have hids := (hc.tree root hroot).nodup_ids hroot
    rw [entries_of_root hroot] at hids
    have hpruned : c.pruned (a.handle n.controller.id k) = { c with root := some root' } := by
      rw [pruned, hroot, Option.map_some, Node.prune_of_graft hmem hgraft hids]
    have hstops : Books.Stops runtime false
        ((Child.leaves n.controller path (k, a)).flatMap fun ℓ =>
          ℓ.running.agents.map fun a => a.withTermination termination) c.books
        ((c.setting runtime).closeChild termination (k, a) c.books) :=
      (c.setting runtime).closeChild_stops n.controller path
    obtain ⟨pre, post, hbefore, hafter⟩ := leaves_without hroot hmem hgraft
    refine ⟨((c.setting runtime).closeChild termination (k, a) c.books).2,
      (Child.leaves n.controller path (k, a)).flatMap fun ℓ => ℓ.running.agents, ?_, ?_⟩
    · rw [heq, hpruned]
    · rw [hpruned]
      refine ⟨?_, ?_, hstops.controllers, hstops.generations⟩
      · rw [hstops.trace, List.map_flatMap, List.map_flatMap]
        simp only [List.map_map]
        rfl
      · have hperm : c.leaves.Perm (Child.leaves n.controller path (k, a) ++ (pre ++ post)) := by
          rw [hbefore, ← List.append_assoc]
          exact List.perm_append_comm.append_right post
        have hafter (books : Books) :
            ({ c with root := some root', books } : Context).leaves = pre ++ post :=
          (leaves_of_root rfl).trans hafter
        rw [agents, agents, hafter, ← List.flatMap_append]
        exact hperm.flatMap_right _
  · refine ⟨c.books, [], ?_, ?_⟩
    · rw [terminate_stale hlive, pruned_of_stale hlive]
    · rw [pruned_of_stale hlive]
      exact .refl termination c

theorem Sound.nodup_agents (hc : c.Sound strict) :
    (c.agents.map fun a => (a.partition, a.statement.id)).Nodup := by
  let names (ℓ : Leaf) : List (UInt32 × StatementId) :=
    (c.statements.map Statement.id).map (Prod.mk ℓ.partition)
  have hnames : c.agents.map (fun a => (a.partition, a.statement.id)) = c.leaves.flatMap names := by
    rw [agents, List.map_flatMap]
    refine List.flatMap_congr fun ℓ hℓ => ?_
    have hstaffed := hc.leaves ℓ hℓ
    simp only [names, ← hstaffed.statements, List.map_map]
    refine List.map_congr_left fun a ha => ?_
    obtain ⟨recovering, hrequest⟩ := hstaffed.requests a ha
    exact congrArg (Prod.mk · a.statement.id) (congrArg StartRequest.partition hrequest)
  rw [hnames, List.nodup_flatMap]
  refine ⟨fun ℓ _ => hc.ids.map fun _ _ heq => (Prod.mk.inj heq).2, ?_⟩
  refine (List.pairwise_map.1 hc.nodup_partitions).imp fun {ℓ ℓ'} hne x hx hx' => hne ?_
  obtain ⟨id, -, rfl⟩ := List.mem_map.1 hx
  obtain ⟨id', -, heq⟩ := List.mem_map.1 hx'
  exact (congrArg Prod.fst heq).symm

theorem Sound.terminate_twice (hc : c.Sound False) (r r' : Runtime) (g h : Handle)
    (termination : Option Props) :
    let c' := (terminate r' h termination (terminate r g termination c).2).2
    c'.Sound False ∧ ∃ books stopped,
      c' = { (c.pruned g).pruned h with books } ∧ c.Sheds termination stopped c' := by
  intro c'
  have hfirst : (terminate r g termination c).2.Sound False := (keeps_terminate c hc).state
  have hsecond : c'.Sound False := (keeps_terminate _ hfirst).state
  obtain ⟨books, stopped, heq, hsheds⟩ := hc.terminate_prunes r g termination
  rw [← heq] at hsheds
  obtain ⟨books', stopped', heq', hsheds'⟩ := hfirst.terminate_prunes r' h termination
  rw [← heq'] at hsheds'
  refine ⟨hsecond, books', stopped ++ stopped', ?_, hsheds.trans hsheds'⟩
  show (terminate r' h termination (terminate r g termination c).2).2 = _
  rw [heq', heq]
  rfl

/-- Two children end in either order, with the same of the context left: the tree with its
controllers, the statements and the identifiers in use. The same instances have been stopped, each
once and with the same properties, whichever stops fail. -/
theorem terminations_commute (hreach : Reachable (fun _ => True) c) (g h : Handle)
    (termination : Option Props) (r₁ r₂ r₃ r₄ : Runtime) :
    let c' := (terminate r₂ h termination (terminate r₁ g termination c).2).2
    let c'' := (terminate r₄ g termination (terminate r₃ h termination c).2).2
    c'' = { c' with books := c''.books } ∧
      c''.books.ids.inUse = c'.books.ids.inUse ∧
      ∃ stopped stopped', c.Sheds termination stopped c' ∧ c.Sheds termination stopped' c'' ∧
        stopped.Perm stopped' ∧ (stopped.map fun a => (a.partition, a.statement.id)).Nodup := by
  intro c' c''
  have hsound : c.Sound False := hreach.sound False.elim
  obtain ⟨hc', books, stopped, heq, hsheds⟩ : c'.Sound False ∧ ∃ books stopped,
      c' = { (c.pruned g).pruned h with books } ∧ c.Sheds termination stopped c' :=
    hsound.terminate_twice r₁ r₂ g h termination
  obtain ⟨hc'', books', stopped', heq', hsheds'⟩ : c''.Sound False ∧ ∃ books stopped,
      c'' = { (c.pruned h).pruned g with books } ∧ c.Sheds termination stopped c'' :=
    hsound.terminate_twice r₃ r₄ h g termination
  have hsame : c'' = { c' with books := c''.books } := by
    rw [heq, heq', pruned_comm]
  have hagents : c''.agents = c'.agents := by
    rw [hsame, agents_with]
  -- what is left is the same, so what was stopped is the same too
  have hboth : (stopped ++ c'.agents).Perm (stopped' ++ c'.agents) :=
    hsheds.agents.symm.trans (hagents ▸ hsheds'.agents)
  refine ⟨hsame, hc'.inUse_of_books (hsame ▸ hc''), stopped, stopped', hsheds, hsheds', ?_, ?_⟩
  · exact (List.perm_append_right_iff _).1 hboth
  · have hnodup := ((hsheds.agents.map _).nodup_iff).1 hsound.nodup_agents
    rw [List.map_append] at hnodup
    exact hnodup.of_append_left

theorem crowded_terminations_commute :
    let team : Handle := .leaf ⟨1⟩ 0 0
    let c' := (terminate .collecting leaving none (terminate reluctant team none crowded).2).2
    let c'' := (terminate failing team none (terminate reluctant leaving none crowded).2).2
    crowded.Denotes leaving ∧ crowded.Denotes team ∧ c'.allocatedIds = [2, 3] ∧
      c'' = { c' with books := c''.books } ∧
      ∃ stopped stopped', crowded.Sheds none stopped c' ∧ crowded.Sheds none stopped' c'' ∧
        stopped.Perm stopped' := by
  intro team c' c''
  have hattached : Reachable (fun _ => True) rostered := .step _ _ (.new ..) trivial
  have hreach : Reachable (fun _ => True) crowded :=
    .step _ _ (.step _ _ hattached trivial) trivial
  obtain ⟨hsame, -, stopped, stopped', hsheds, hsheds', hperm, -⟩ :=
    terminations_commute hreach team leaving none reluctant .collecting reluctant failing
  exact ⟨by decide +kernel, by decide +kernel, by decide +kernel, hsame, stopped, stopped', hsheds,
    hsheds', hperm⟩

end Context

end EventContexts
