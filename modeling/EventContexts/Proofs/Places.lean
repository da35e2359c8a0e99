import EventContexts.Proofs.Upkeep

namespace EventContexts

open Act

/-- The branches under a node of a level, and those further down, hang in the places of their
keys. A partition hangs in the place of its identifier. -/
def Children.Placed : {below : List Level} → Level → Children below → Prop
  | [], _, _ => True
  | _ :: below, l, branches =>
      let branches : Table (Branch (Children below)) := branches
      ∀ x ∈ branches.entries, l.Places x.2.key x.1 ∧
        Placed x.2.node.controller.level x.2.node.children

variable {ω ε : Type} {below : List Level} {l m : Level}

@[simp] theorem Children.placed_empty : (Children.empty below).Placed l := by
  cases below with
  | nil => trivial
  | cons m below => exact fun x hx => absurd hx List.not_mem_nil

theorem Children.Placed.insert {branches : Table (Branch (Children below))} {k : UInt32}
    {b : Branch (Children below)} (h : @Placed (m :: below) l branches)
    (hplace : l.Places b.key k) (hb : b.node.children.Placed b.node.controller.level) :
    @Placed (m :: below) l (branches.insert k b) := by
  intro x hx
  rcases Table.mem_insert.1 hx with rfl | ⟨hx, -⟩
  · exact ⟨hplace, hb⟩
  · exact h x hx

theorem Node.traverseLeaves_placed {f : Leaf → ω → Except ε Running × ω}
    {node : Node (Children below)} (h : node.children.Placed node.controller.level) {path : Path}
    {w : ω} :
    Ends (fun n _ => n.controller = node.controller ∧ n.children.Placed n.controller.level)
      (fun _ _ => True) (node.traverseLeaves f below path w) := by
  induction below generalizing path w with
  | nil =>
      simp only [traverseLeaves]
      split
      · exact ⟨rfl, trivial⟩
      · trivial
  | cons m below ih =>
      let t : Table (Branch (Children below)) := node.children
      let visit (_ : UInt32) (b : Branch (Children below)) :
          ω → Except ε (Branch (Children below)) × ω :=
        b.visit (traverseLeaves f below (path ++ [node.step b.key b.properties]))
      have hvisit : ∀ e ∈ t.entries, ∀ w, True → Ends
          (fun (b : Branch (Children below)) _ => (node.controller.level.Places b.key e.1 ∧
            b.node.children.Placed b.node.controller.level) ∧ True)
          (fun _ _ => True) (visit e.1 e.2 w) := by
        rintro ⟨k, b⟩ he w -
        obtain ⟨hplace, hb⟩ := h (k, b) he
        exact Branch.visit_ends ((ih hb).imp (fun n _ hn => ⟨⟨hplace, hn.2⟩, trivial⟩)
          fun _ _ _ => trivial)
      have hdone := Table.traverse_ends (W := fun _ => True) hvisit (w := w) trivial
      simp only [traverseLeaves]
      split
      · next t' w' heq =>
          obtain ⟨ht, -⟩ := hdone.congr heq
          refine ⟨rfl, List.Forall₂.forall_right (ht.imp ?_)⟩
          rintro ⟨k, b⟩ ⟨_, b'⟩ ⟨rfl, hb'⟩
          exact hb'
      · trivial

namespace Setting

variable {env : Setting}

def Placed (_ : Unit) (below : List Level) (post : Post) (s : Children below × Books) : Prop :=
  s.1.Placed post.level

theorem endChild_placed {id : ControllerId} {h : Handle} {termination : Option Props}
    {s : Children below × Books} (hs : s.1.Placed l) :
    (env.endChild termination below id h s).2.1.Placed l := by
  obtain ⟨children, b⟩ := s
  by_cases hlive : ∃ e ∈ children.table.entries, h = e.2.handle id e.1
  · obtain ⟨⟨k, a⟩, hmem, rfl⟩ := hlive
    rw [endChild_live hmem]
    cases below with
    | nil => trivial
    | cons m below => exact fun x hx => hs x (Table.mem_erase.1 hx).1
  · rw [endChild_stale hlive]
    exact hs

theorem placed_upkeep (env : Setting) : env.Upkeep (fun l r => r.Suits l) Placed where
  suits hr := hr
  number h := h
  partition _ _ _ := ends_of_state trivial
  sprout hr h _ := by
    refine ⟨(), Children.placed_empty, fun node b' _ hnode => ⟨?_, h⟩⟩
    exact Children.Placed.insert h hr hnode
  stop s hs := ends_of_state (endChild_placed hs)
  descend {x post m below k branch branches b} h hmem := by
    obtain ⟨hplace, hbranch⟩ := h (k, branch) hmem
    exact ⟨(), hbranch, fun node b' _ hnode => Children.Placed.insert h hplace hnode⟩
  offer _ _ := trivial

end Setting

namespace Context

variable {c : Context} {runtime : Runtime} {s : Statement} {id : StatementId}

def Placed (c : Context) : Prop :=
  ∀ root ∈ c.root, c.Rooted Setting.Placed () (root, c.books)

theorem Placed.tends (h : c.Placed) : c.Tends Setting.Placed () c.descriptor c.statements :=
  ⟨rfl, rfl, fun _ _ => Children.placed_empty, h⟩

theorem placed_teardown {statementLevel : Bool} : (teardown runtime statementLevel c).2.Placed :=
  by
  rintro root ⟨⟩

theorem Placed.traverse (h : c.Placed) {root : Node (Children c.declaration.inner)}
    (hroot : c.root = some root) {ω ε : Type} {f : Leaf → ω → Except ε Running × ω} {w : ω} :
    Ends (fun n _ => n.controller.level = c.declaration.outer ∧
        n.children.Placed n.controller.level)
      (fun _ _ => True) (root.traverseLeaves f c.declaration.inner [] w) := by
  obtain ⟨hlevel, hplaced⟩ := h root hroot
  refine (Node.traverseLeaves_placed hplaced).imp (fun n _ ⟨hcontroller, hn⟩ => ?_) fun _ _ h => h
  exact ⟨(congrArg Controller.level hcontroller).trans hlevel, hn⟩

theorem placed_of_root {root : Node (Children c.declaration.inner)} {books : Books}
    {recovery : Option (List Assignment)} (hlevel : root.controller.level = c.declaration.outer)
    (h : root.children.Placed root.controller.level) :
    ({ c with root := some root, books, recovery } : Context).Placed := by
  rintro _ ⟨⟩
  exact ⟨hlevel, h⟩

theorem Placed.attach (h : c.Placed) : (attach runtime s c).2.Placed := by
  have hcase := attaches runtime s c
  generalize Context.attach runtime s c = o at hcase ⊢
  cases hcase with
  | taken | unfit | unjoined => exact h
  | @joined root _ _ _ hroot heq =>
      have hstart := h.traverse hroot (f := ((c.withStatement s).setting runtime).startIn s)
        (w := ([], c.books))
      rw [Setting.startEverywhere] at heq
      split at heq
      · next hx =>
          obtain ⟨⟨⟩, rfl⟩ := Prod.mk.inj heq
          obtain ⟨hlevel, hplaced⟩ := hstart.congr hx
          exact placed_of_root (c := c.withStatement s) hlevel hplaced
      · cases (Prod.mk.inj heq).1
  | awoken _ hroot heq =>
      have hawaken : Ends _ _ (awaken runtime (c.withStatement s)) := awaken_tends (x := ())
        (fun env _ _ => Setting.placed_upkeep env)
        ⟨rfl, rfl, fun _ _ => Children.placed_empty, h⟩ hroot
      obtain ⟨root, books, rfl, hlevel, hplaced⟩ := hawaken.congr heq
      exact placed_of_root hlevel hplaced
  | unawoken => exact placed_teardown

theorem Placed.detach (h : c.Placed) : (detach runtime id c).2.Placed := by
  have hcase := detaches runtime id c
  generalize Context.detach runtime id c = o at hcase ⊢
  cases hcase with
  | unknown | idle => exact h
  | last => exact placed_teardown
  | @departed root _ _ _ _ _ hroot heq =>
      have hstop := h.traverse hroot (f := ((c.withoutStatement id).setting runtime).stopIn id)
        (w := (.ok (), c.books))
      rw [Setting.stopEverywhere] at heq
      split at heq
      · next hx =>
          obtain ⟨hlevel, hplaced⟩ := hstop.congr hx
          obtain ⟨-, rfl, -⟩ := by simpa using heq
          exact placed_of_root (c := c.withoutStatement id) hlevel hplaced
      · next e _ _ => exact e.elim

theorem Placed.perform {op : Operation} (h : c.Placed) (hop : op.Regular) :
    (Context.perform runtime op c).2.Placed := by
  have hinner (hinner : op.Inner) : (Context.perform runtime op c).2.Placed := by
    have hkeeps : Keeps (Tends Setting.Placed () c.descriptor c.statements)
        (Context.perform runtime op) := by
      refine tends_perform (fun env _ _ => Setting.placed_upkeep env) hinner fun r l hr => ?_
      cases op with
      | instantiate originator r => exact hop.elim
      | _ => exact hr.elim
    exact (hkeeps c h.tends).state.tree
  cases op with
  | attach s => exact h.attach
  | detach id => exact h.detach
  | _ => exact hinner trivial

theorem Reachable.placed (h : Reachable Operation.Regular c) : c.Placed := by
  induction h with
  | new declaration options metrics recovery => rintro root ⟨⟩
  | step runtime op _ hop ih => exact ih.perform hop

end Context

end EventContexts
