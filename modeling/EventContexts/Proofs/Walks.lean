import EventContexts.Context.Running
import EventContexts.Context.Statements
import EventContexts.Proofs.Staffing

namespace EventContexts

open Act

namespace Children

variable {below : List Level}

theorem numbers_of_put (children : Children below) {children' others : Children below} {k : UInt32}
    {a : Child below} (h : children'.table = children.table.insert k a)
    (hothers : others.table = children.table.erase k) :
    children'.numbers.Perm (Child.numbers (k, a) ++ others.numbers) := by
  rw [numbers_eq, numbers_eq, h, hothers]
  exact (children.table.insert_perm k a).flatMap_right _

end Children

def Node.withBranch {l : Level} {below : List Level} (node : Node (Children (l :: below)))
    (k : UInt32) (branch : Branch (Children below)) (n : Node (Children below)) :
    Node (Children (l :: below)) :=
  let branches : Table (Branch (Children below)) := node.children
  { node with children := branches.insert k { branch with node := n } }

namespace Setting

variable {env : Setting} {below : List Level} {limit : Option Nat} {since : Nat}
  {rest : List Number} {path : Path} {post : Post} {strict : Prop} {Q : Leaf → Prop}
  {R : Path → Level → Request → Prop} {each each' : UInt32 × Child below → Prop} {e : Event}
  {α : Type}

theorem drive_ends {x : Lifecycle (Children below × Books) →
      Act (Controller × (Children below × Books)) α}
    {node : Node (Children below)} {b : Books} {T : α → Node (Children below) × Books → Prop}
    {E : Error → Node (Children below) × Books → Prop}
    (h : Ends (fun a p => T a (⟨p.1, p.2.1⟩, p.2.2)) (fun e p => E e (⟨p.1, p.2.1⟩, p.2.2))
      (x (env.lifecycle below path node.controller) (node.controller, (node.children, b)))) :
    Ends T E (env.drive below path x (node, b)) := by
  rcases hx : x (env.lifecycle below path node.controller)
    (node.controller, (node.children, b)) with ⟨r, controller, children, b'⟩
  have hdrive : env.drive below path x (node, b) = (r, ({ controller, children }, b')) := by
    simp only [drive, hx]
  rw [hx] at h
  rw [hdrive]
  cases r <;> exact h

theorem keeps_drive (env : Setting) (hp : env.Policy since R Q) (hl : ∀ l ∈ below, l.flaw? = none)
    {x : Lifecycle (Children below × Books) → Act (Controller × (Children below × Books)) α}
    (hx : ∀ life : Lifecycle (Children below × Books),
      life.Honours (R path post.level)
        (Kept env.limit since strict post.id rest (Child.Sound Q strict below path post)) →
      Keeps (fun p => Controller.Manned post
        (Kept env.limit since strict post.id rest (Child.Sound Q strict below path post)) p.1 p.2)
        (x life)) :
    Keeps (Stands env.limit since strict post rest (Child.Sound Q strict below path post))
      (env.drive below path x) := by
  rintro ⟨node, b⟩ hs
  have hpost : node.controller.post = post := hs.manned.stands
  have hlife : (env.lifecycle below path node.controller).Honours (R path post.level)
      (Kept env.limit since strict post.id rest (Child.Sound Q strict below path post)) := by
    rw [← hpost]
    exact lifecycle_honours hp hl
  have hmanned := hx _ hlife (node.controller, (node.children, b)) (manned_iff_stands.2 hs)
  exact drive_ends (hmanned.imp (fun _ _ h => manned_iff_stands.1 h) fun _ _ h =>
    manned_iff_stands.1 h)

theorem Stands.step_eq {node : Node (Children below)} {b : Books}
    (h : Stands limit since strict post rest each (node, b)) (key : Key) (properties : Props) :
    node.step key properties = ⟨post.level, key, properties⟩ := by
  rw [← h.manned.stands]
  rfl

theorem Stands.replace {node : Node (Children below)} {b b' : Books} {k : UInt32}
    {a a' : Child below} (children : Children below)
    (h : Stands limit since strict post rest each (node, b))
    (hmem : (k, a) ∈ node.children.table.entries)
    (hchildren : children.table = node.children.table.insert k a')
    (hkey : a'.key = a.key) (hhandle : a'.handle post.id k = a.handle post.id k)
    (hold : ∀ e ∈ node.children.table.entries, e.1 ≠ k → each e → each' e)
    (hnew : each' (k, a'))
    (hb : b'.Accounts limit since (children.numbers ++ rest)) :
    Stands limit since strict post rest each' ({ node with children }, b') := by
  refine ⟨⟨h.manned.stands, h.manned.tended.level, h.manned.tended.sound, ?_⟩, hb⟩
  rw [hchildren]
  exact h.manned.tended.holds.replace hmem hkey hhandle hold hnew

section branches

variable {l : Level} {node : Node (Children (l :: below))} {n : Node (Children below)}
  {b b' : Books} {k : UInt32} {branch : Branch (Children below)}
  {each each' : UInt32 × Child (l :: below) → Prop}

def otherNumbers (node : Node (Children (l :: below))) (k : UInt32) (id : ControllerId)
    (rest : List Number) : List Number :=
  let branches : Table (Branch (Children below)) := node.children
  let others : Children (l :: below) := branches.erase k
  .controller id :: (others.numbers ++ rest)

theorem Stands.descend (h : Stands limit since strict post rest each (node, b))
    (hmem : (k, branch) ∈ (node.children : Table (Branch (Children below))).entries)
    (hsound : Child.Sound Q strict (l :: below) path post (k, branch)) :
    let post' : Post := ⟨branch.node.controller.id, k, post.nesting + 1, l⟩
    Stands limit since strict post' (otherNumbers node k post'.id rest)
      (Child.Sound Q strict below (path ++ [⟨post.level, branch.key, branch.properties⟩]) post')
      (branch.node, b) := by
  refine ⟨Child.sound_branch.1 hsound, ?_⟩
  let others : Children (l :: below) :=
    (node.children : Table (Branch (Children below))).erase k
  have hnumbers : node.children.numbers.Perm (branch.node.numbers ++ others.numbers) :=
    Children.numbers_of_mem others rfl hmem
  refine h.accounts.perm ((hnumbers.append_right rest).trans ?_)
  rw [Node.numbers, List.append_assoc]
  exact List.perm_middle.symm

theorem Stands.ascend (h : Stands limit since strict post rest each (node, b))
    (hmem : (k, branch) ∈ (node.children : Table (Branch (Children below))).entries)
    (hn : Stands limit since strict ⟨branch.node.controller.id, k, post.nesting + 1, l⟩
      (otherNumbers node k branch.node.controller.id rest)
      (Child.Sound Q strict below (path ++ [⟨post.level, branch.key, branch.properties⟩])
        ⟨branch.node.controller.id, k, post.nesting + 1, l⟩) (n, b'))
    (hold : ∀ e ∈ node.children.table.entries, e.1 ≠ k → each e → each' e)
    (hnew : ∀ a : Child (l :: below), a.key = Branch.key branch →
      a.handle post.id k = .branch post.id k branch.node.controller.id →
      Child.Sound Q strict (l :: below) path post (k, a) → each' (k, a)) :
    Stands limit since strict post rest each' (node.withBranch k branch n, b') := by
  have hid : n.controller.id = branch.node.controller.id := congrArg Post.id hn.manned.stands
  let branch' : Branch (Children below) := { branch with node := n }
  let children : Children (l :: below) :=
    (node.children : Table (Branch (Children below))).insert k branch'
  have hsound : Child.Sound Q strict (l :: below) path post (k, branch') := by
    rw [Child.sound_branch, hid]
    exact hn.manned
  let a' : Child (l :: below) := branch'
  have hhandle : a'.handle post.id k = .branch post.id k branch.node.controller.id :=
    congrArg (Handle.branch post.id k) hid
  refine h.replace children hmem rfl rfl hhandle hold (hnew a' rfl hhandle hsound) ?_
  · let others : Children (l :: below) :=
      (node.children : Table (Branch (Children below))).erase k
    have hnumbers : children.numbers.Perm (n.numbers ++ others.numbers) :=
      Children.numbers_of_put node.children (a := branch') rfl rfl
    refine hn.accounts.perm (List.Perm.trans ?_ (hnumbers.append_right rest).symm)
    rw [Node.numbers, hid, List.append_assoc]
    exact List.perm_middle

theorem Stands.withBranch (h : Stands limit since strict post rest
      (Child.Sound Q strict (l :: below) path post) (node, b))
    (hmem : (k, branch) ∈ (node.children : Table (Branch (Children below))).entries)
    {p : Node (Children below) × Books}
    (hn : Stands limit since strict ⟨branch.node.controller.id, k, post.nesting + 1, l⟩
      (otherNumbers node k branch.node.controller.id rest)
      (Child.Sound Q strict below (path ++ [⟨post.level, branch.key, branch.properties⟩])
        ⟨branch.node.controller.id, k, post.nesting + 1, l⟩) p) :
    Stands limit since strict post rest (Child.Sound Q strict (l :: below) path post)
      (node.withBranch k branch p.1, p.2) :=
  h.ascend hmem hn (fun _ _ _ h => h) fun _ _ _ h => h

theorem inBranch_ends {visit : Path → Act (Node (Children below) × Books) Unit} {h : Handle}
    {T : Unit → Node (Children (l :: below)) × Books → Prop}
    {E : Error → Node (Children (l :: below)) × Books → Prop}
    (hmem : (k, branch) ∈ (node.children : Table (Branch (Children below))).entries)
    (hh : h = .branch node.controller.id k branch.node.controller.id)
    (hvisit : Ends (fun u p => T u (node.withBranch k branch p.1, p.2))
      (fun e p => E e (node.withBranch k branch p.1, p.2))
      (visit (path ++ [node.step branch.key branch.properties]) (branch.node, b))) :
    Ends T E (inBranch visit path h (node, b)) := by
  subst hh
  have hholds : holds (l :: below) node.children node.controller.id
      (.branch node.controller.id k branch.node.controller.id) = true :=
    Children.holds_iff.2 ⟨(k, branch), hmem, rfl⟩
  have hget := Table.get?_eq_some.2 hmem
  rcases hv : visit (path ++ [node.step branch.key branch.properties]) (branch.node, b)
    with ⟨r, n, b'⟩
  rw [hv] at hvisit
  simp only [inBranch, hholds, Handle.id, hget, hv]
  cases r <;> exact hvisit

theorem inBranch_stale {visit : Path → Act (Node (Children below) × Books) Unit} {h : Handle}
    (hstale : ¬ ∃ e ∈ node.children.table.entries, h = e.2.handle node.controller.id e.1) :
    inBranch visit path h (node, b) = (.ok (), (node, b)) := by
  have hholds : holds (l :: below) node.children node.controller.id h = false :=
    Bool.eq_false_iff.2 fun hh => hstale (Children.holds_iff.1 hh)
  simp [inBranch, hholds]

end branches

section partitions

variable {node : Node (Children [])} {b : Books} {h : Handle} {p : UInt32} {r : Running}

theorem offerPartition_live
    (hmem : (p, r) ∈ (node.children : Table Running).entries)
    (hh : h = .leaf node.controller.id p r.generation) :
    offerPartition e h (node, b) = (.ok (), ({ node with
      children := (node.children : Table Running).insert p
        { r with agents := r.agents.map fun a => a.evaluate e } }, (offerAll e r.agents b).2)) := by
  subst hh
  have hholds : holds [] node.children node.controller.id
      (.leaf node.controller.id p r.generation) = true :=
    Children.holds_iff.2 ⟨(p, r), hmem, rfl⟩
  have hget := Table.get?_eq_some.2 hmem
  simp only [offerPartition, hholds, Handle.id, hget, fst_offerAll]

theorem offerPartition_stale
    (hstale : ¬ ∃ e ∈ node.children.table.entries, h = e.2.handle node.controller.id e.1) :
    offerPartition e h (node, b) = (.ok (), (node, b)) := by
  have hholds : holds [] node.children node.controller.id h = false :=
    Bool.eq_false_iff.2 fun hh => hstale (Children.holds_iff.1 hh)
  simp [offerPartition, hholds]

theorem Stands.withAgents {each each' : UInt32 × Child [] → Prop} {agents : List Agent} {b' : Books}
    (h : Stands limit since strict post rest each (node, b))
    (hmem : (p, r) ∈ (node.children : Table Running).entries)
    (hb : b'.Accounts limit since (node.children.numbers ++ rest))
    (hold : ∀ e ∈ node.children.table.entries, e.1 ≠ p → each e → each' e)
    (hnew : ∀ a : Child [], a = { r with agents } → each' (p, a)) :
    Stands limit since strict post rest each' ({ node with
      children := (node.children : Table Running).insert p { r with agents } }, b') := by
  let a : Child [] := r
  let a' : Child [] := { r with agents }
  let children : Children [] := (node.children : Table Running).insert p a'
  let others : Children [] := (node.children : Table Running).erase p
  have hafter : children.numbers.Perm (Child.numbers (p, a') ++ others.numbers) :=
    Children.numbers_of_put node.children rfl rfl
  have hbefore : node.children.numbers.Perm (Child.numbers (p, a) ++ others.numbers) :=
    Children.numbers_of_mem others rfl hmem
  refine h.replace children (a := a) hmem rfl rfl rfl hold (hnew a' rfl) (hb.perm ?_)
  exact (hbefore.trans hafter.symm).append_right rest

end partitions

theorem keeps_offerPartition
    (hQ : ∀ ℓ, Q ℓ → Q (ℓ.withAgents (ℓ.running.agents.map fun a => a.evaluate e))) {h : Handle} :
    Keeps (Stands env.limit since strict post rest (Child.Sound Q strict [] path post))
      (offerPartition e h) := by
  rintro ⟨node, b⟩ hs
  by_cases hlive : ∃ e ∈ node.children.table.entries, h = e.2.handle node.controller.id e.1
  · obtain ⟨⟨p, r⟩, hmem, hh⟩ := hlive
    rw [offerPartition_live hmem hh]
    refine hs.withAgents hmem (Books.accounts_offerAll e _ hs.accounts) (fun _ _ _ h => h) ?_
    rintro a' rfl
    exact hQ _ (hs.manned.tended.holds.each (p, r) hmem)
  · rw [offerPartition_stale hlive]
    exact hs

theorem keeps_offer (env : Setting) (hp : env.Policy since (fun _ _ _ => True) Q)
    (hQ : ∀ ℓ, Q ℓ → Q (ℓ.withAgents (ℓ.running.agents.map fun a => a.evaluate e)))
    (hl : ∀ l ∈ post.level :: below, l.flaw? = none) :
    Keeps (Stands env.limit since strict post rest (Child.Sound Q strict below path post))
      (env.offer e below path) := by
  induction below generalizing path post rest with
  | nil =>
      refine Triple.bind (keeps_drive env hp (by simp) fun life hlife => ?_) fun targets => ?_
      · exact Controller.keeps_route hlife (hl _ (List.mem_cons_self ..)) fun _ => trivial
      · exact triple_forEach fun h _ => keeps_offerPartition hQ
  | cons l below ih =>
      have hbelow : ∀ m ∈ l :: below, m.flaw? = none := fun m hm => hl m (List.mem_cons_of_mem _ hm)
      refine Triple.bind (keeps_drive env hp hbelow fun life hlife => ?_) fun targets => ?_
      · exact Controller.keeps_route hlife (hl _ (List.mem_cons_self ..)) fun _ => trivial
      · refine triple_forEach fun h _ => ?_
        rintro ⟨node, b⟩ hs
        by_cases hlive : ∃ e ∈ node.children.table.entries, h = e.2.handle node.controller.id e.1
        · obtain ⟨⟨k, branch⟩, hmem, hh⟩ := hlive
          apply inBranch_ends hmem hh
          rw [hs.step_eq]
          have hbranch := hs.descend hmem (hs.manned.tended.holds.each _ hmem)
          exact (ih hbelow _ hbranch).imp (fun _ _ => hs.withBranch hmem)
            fun _ _ => hs.withBranch hmem
        · rw [inBranch_stale hlive]
          exact hs

theorem atController_ends {id : ControllerId}
    {f : (below : List Level) → Path → Act (Node (Children below) × Books) α}
    (hf : ∀ {below path post rest}, (∀ l ∈ post.level :: below, l.flaw? = none) →
      Keeps (Stands limit since strict post rest (Child.Sound Q strict below path post))
        (f below path))
    (hl : ∀ l ∈ post.level :: below, l.flaw? = none) {node : Node (Children below)} {b : Books}
    (hs : Stands limit since strict post rest (Child.Sound Q strict below path post) (node, b))
    {o : Except Error α × (Node (Children below) × Books)}
    (ho : Node.atController id f below path (node, b) = some o) :
    Ends (fun _ => Stands limit since strict post rest (Child.Sound Q strict below path post))
      (fun _ => Stands limit since strict post rest (Child.Sound Q strict below path post)) o := by
  induction below generalizing path post rest with
  | nil =>
      rw [Node.atController] at ho
      split at ho
      · obtain rfl := Option.some.inj ho
        exact hf hl _ hs
      · cases ho
  | cons l below ih =>
      rw [Node.atController] at ho
      split at ho
      · obtain rfl := Option.some.inj ho
        exact hf hl _ hs
      · obtain ⟨⟨k, branch⟩, hmem, hvisit⟩ := List.exists_of_findSome?_eq_some ho
        obtain ⟨⟨r, n, b'⟩, hn, rfl⟩ := Option.map_eq_some_iff.1 hvisit
        have hcontains : (node.children : Table (Branch (Children below))).contains k = true :=
          Table.contains_iff.2 (List.mem_map_of_mem hmem)
        have hbranch := hs.descend hmem (hs.manned.tended.holds.each _ hmem)
        rw [hs.step_eq] at hn
        have hbelow : ∀ m ∈ l :: below, m.flaw? = none :=
          fun m hm => hl m (List.mem_cons_of_mem _ hm)
        have hvisited := (ih hbelow hbranch hn).imp (fun _ _ => hs.withBranch hmem)
          fun _ _ => hs.withBranch hmem
        simp only [Table.replace, hcontains]
        cases r <;> exact hvisited

theorem keeps_endAt (env : Setting) {h : Handle} {termination : Option Props} :
    Keeps (Stands env.limit since strict post rest (Child.Sound Q strict below path post))
      (env.endAt h termination below) := by
  rintro ⟨node, b⟩ hs
  by_cases hlive : ∃ e ∈ node.children.table.entries, h = e.2.handle node.controller.id e.1
  · obtain ⟨⟨k, a⟩, hmem, rfl⟩ := hlive
    have hend : Triple (fun s => s.1 = node.children ∧
          s.2.Accounts env.limit since (node.children.numbers ++ rest))
        (env.endChild termination below node.controller.id (a.handle node.controller.id k))
        (fun _ => Shrunk env.limit since rest node.children k)
        (fun _ => Shrunk env.limit since rest node.children k) := endChild_triple hmem
    have hdone := (hend (node.children, b) ⟨rfl, hs.accounts⟩).state
    rw [endChild_live hmem] at hdone
    rw [endAt_live hmem, Node.without, Child.id_handle]
    refine ends_of_state ⟨⟨?_, ?_, ?_, ?_⟩, hdone.accounts⟩
    · rw [← hs.manned.stands]
      exact congrArg (Post.mk _ _ _) Scheme.level_forget
    · exact Scheme.level_forget.trans hs.manned.tended.level
    · exact hs.manned.tended.sound.forget _
    · rw [hdone.table]
      apply hs.manned.tended.holds.forget hmem
      rw [← hs.manned.stands]
      exact Scheme.entries_forget
  · rw [endAt_stale hlive]
    exact hs

theorem keeps_startAt (env : Setting) (hp : env.Policy since (fun _ _ _ => True) Q)
    (hl : ∀ l ∈ below, l.flaw? = none) (hstrict : ¬ strict) {r : Request} :
    Keeps (Stands env.limit since strict post rest (Child.Sound Q strict below path post))
      (env.startAt r below path) := by
  rintro ⟨node, b⟩ hs
  have hpost : post = node.controller.post := hs.manned.stands.symm
  subst hpost
  have hgrows : env.Grows since (fun _ _ _ => True) Q strict below := grows hp below hl
  have hstart := hgrows path node.controller rest node.children r trivial (node.children, b)
    ⟨rfl, hs.accounts⟩
  rcases hx : env.startChild below path node.controller r (node.children, b)
    with ⟨o, children, b'⟩
  have heq : env.startAt r below path (node, b) = (o, ({ node with children }, b')) := by
    simp only [startAt, hx]
  rw [hx] at hstart
  rw [heq]
  cases o with
  | error e =>
      obtain ⟨rfl, haccounts⟩ := hstart
      exact ⟨hs.manned, haccounts⟩
  | ok h =>
      obtain ⟨⟨k, a, -, hchildren, -, -, hsound⟩, haccounts⟩ := hstart
      refine ⟨⟨hs.manned.stands, hs.manned.tended.level, hs.manned.tended.sound, ?_⟩, haccounts⟩
      rw [hchildren]
      refine ⟨fun h => absurd h hstrict, fun e he => ?_⟩
      rcases Table.mem_insert.1 he with rfl | ⟨he, -⟩
      · exact hsound
      · exact hs.manned.tended.holds.each e he

end Setting

namespace Context

def bare (c : Context) : Node (Children c.declaration.inner) × Books :=
  ({ controller := Controller.create c.declaration.outer ⟨c.books.nextController⟩ 0 1
     children := Children.empty _ },
    { c.books with nextController := c.books.nextController + 1 })

def activation (c : Context) : Activation := { recovered := c.recovery.getD [], now := c.now }

theorem ends_awaken {c : Context} {runtime : Runtime}
    {Q : Node (Children c.declaration.inner) × Books → Prop}
    {E : Error → Node (Children c.declaration.inner) × Books → Prop}
    (h : Ends (fun _ => Q) E ((c.setting runtime).drive c.declaration.inner []
      (fun life => Controller.activate life c.activation) c.bare)) :
    Ends (fun _ c' => ∃ root books,
        c' = { c with root := some root, recovery := none, books } ∧ Q (root, books))
      (fun e c' => ∃ root books, c' = { c with root := some root, books } ∧ E e (root, books))
      (awaken runtime c) := by
  simp only [awaken]
  split
  · next root books heq => exact ⟨root, books, rfl, h.congr heq⟩
  · next e root books heq => exact ⟨root, books, rfl, h.congr heq⟩

end Context

end EventContexts
