import EventContexts.Proofs.Grafts
import EventContexts.Proofs.Handles
import Mathlib.Logic.Relation

namespace EventContexts

open Act

namespace Setting

variable {env : Setting} {below : List Level} {root : Node (Children below)} {b : Books}

theorem startEverywhere_handles {s : Statement} :
    Ends (fun root' b' => (root'.controller = root.controller ∧
        root'.children.handles root.controller.id = root.children.handles root.controller.id) ∧
        b.Notes b')
      (fun _ b' => b.Notes b') (env.startEverywhere s below root b) := by
  let W (w : List Agent × Books) : Prop := b.Notes w.2
  have hvisit : ∀ ℓ w, W w → Ends (fun r w => r.generation = ℓ.running.generation ∧ W w)
      (fun _ => W) (env.startIn s ℓ w) := by
    rintro ℓ ⟨started, b'⟩ hb
    have hstart : b.Notes (env.startAgent ℓ.path ℓ.partition false s b').2 :=
      Books.Notes.trans hb Books.notes_startAgent
    rw [startIn]
    split
    · next a b'' heq =>
        rw [heq] at hstart
        exact ⟨rfl, hstart⟩
    · next e b'' heq =>
        rw [heq] at hstart
        exact hstart
  have hready : W ([], b) := Books.Notes.refl b
  have hdone := Node.traverseLeaves_handles hvisit root [] hready
  simp only [startEverywhere]
  split
  · next root' started b' heq => exact hdone.congr heq
  · next e started b' heq =>
      have hb : b.Notes b' := hdone.congr heq
      exact hb.trans Books.notes_stopAgents

theorem stopEverywhere_handles (env : Setting) (id : StatementId) (root : Node (Children below))
    (b : Books) :
    ((env.stopEverywhere id below root b).2.1.controller = root.controller ∧
      (env.stopEverywhere id below root b).2.1.children.handles root.controller.id =
        root.children.handles root.controller.id) ∧
      b.Notes (env.stopEverywhere id below root b).2.2 := by
  let W (w : Except Error Unit × Books) : Prop := b.Notes w.2
  have hvisit : ∀ ℓ w, W w → Ends (fun r w => r.generation = ℓ.running.generation ∧ W w)
      (fun _ => W) (env.stopIn id ℓ w) :=
    fun ℓ w hb => ⟨rfl, Books.Notes.trans hb Books.notes_stopAgents⟩
  have hready : W (.ok (), b) := Books.Notes.refl b
  have hdone := Node.traverseLeaves_handles hvisit root [] hready
  simp only [stopEverywhere]
  split
  · next root' outcome b' heq => exact hdone.congr heq
  · next e _ _ => exact e.elim

end Setting

namespace Context

variable {c c' c'' : Context} {h : Handle} {runtime : Runtime}

def Denotes (c : Context) (h : Handle) : Prop := ∃ x ∈ c.entries, h ∈ x.handles.map Prod.snd

instance : Decidable (c.Denotes h) :=
  inferInstanceAs (Decidable (∃ x ∈ c.entries, h ∈ x.handles.map Prod.snd))

theorem not_denotes_of_none (hroot : c.root = none) : ¬ c.Denotes h := by
  rintro ⟨x, hx, -⟩
  simp [entries, hroot] at hx

theorem denotes_iff {root : Node (Children c.declaration.inner)} (hroot : c.root = some root) :
    c.Denotes h ↔ h ∈ root.children.handles root.controller.id := by
  rw [Denotes, entries_of_root hroot]
  exact Node.mem_handles_entries

theorem Sound.given {strict : Prop} (hc : c.Sound strict) (hh : c.Denotes h) :
    h.Given c.books := by
  cases hroot : c.root with
  | none => exact absurd hh (not_denotes_of_none hroot)
  | some root =>
      have haccounts := (hc.tree root hroot).accounts
      have hnumber := Children.number_of_handle ((denotes_iff hroot).1 hh)
      have hmem : h.number ∈ root.numbers := List.mem_cons_of_mem _ hnumber
      cases h with
      | branch parent path child =>
          exact haccounts.controllersGiven child (List.mem_filterMap.2 ⟨_, hmem, rfl⟩)
      | leaf controller partition generation =>
          exact haccounts.generationsGiven generation (List.mem_filterMap.2 ⟨_, hmem, rfl⟩)

/-- The books have moved on, and what has come to life since has new numbers. -/
structure Onward (c c' : Context) : Prop where
  books : c.books.Advances c'.books
  handles : ∀ h, c'.Denotes h → c.Denotes h ∨ ¬ h.Given c.books

namespace Onward

theorem refl (c : Context) : c.Onward c := ⟨.refl _, fun _ => .inl⟩

theorem trans (h : c.Onward c') (h' : c'.Onward c'') : c.Onward c'' := by
  refine ⟨h.books.trans h'.books, fun g hg => ?_⟩
  rcases h'.handles g hg with hg | hnew
  · exact h.handles g hg
  · exact .inr fun hgiven => hnew (hgiven.advances h.books)

theorem of_none (hbooks : c.books.Advances c'.books) (hroot : c'.root = none) : c.Onward c' :=
  ⟨hbooks, fun _ hh => absurd hh (not_denotes_of_none hroot)⟩

theorem of_rooted {root : Node (Children c'.declaration.inner)} (hroot : c'.root = some root)
    (h : c'.Rooted Setting.Issued (c.books, c.Denotes) (root, c'.books)) : c.Onward c' :=
  ⟨h.2.advances, fun g hg => h.2.handles g ((denotes_iff hroot).1 hg)⟩

theorem of_tends {shape : Descriptor} {ss : List Statement}
    (h : c'.Tends Setting.Issued (c.books, c.Denotes) shape ss) : c.Onward c' := by
  cases hroot : c'.root with
  | none => exact of_none (h.idle hroot ⟨0⟩).advances hroot
  | some root => exact of_rooted hroot (h.tree root hroot)

theorem of_same {root : Node (Children c.declaration.inner)}
    {root' : Node (Children c'.declaration.inner)} (hroot : c.root = some root)
    (hroot' : c'.root = some root') (hbooks : c.books.Notes c'.books)
    (hhandles : root'.children.handles root'.controller.id =
      root.children.handles root.controller.id) : c.Onward c' := by
  refine ⟨hbooks.advances, fun g hg => .inl ((denotes_iff hroot).2 ?_)⟩
  rw [← hhandles]
  exact (denotes_iff hroot').1 hg

end Onward

theorem denotes_with {statements : List Statement} {recovery : Option (List Assignment)}
    {now : Int64} {books : Books} :
    ({ c with statements, recovery, now, books } : Context).Denotes h ↔ c.Denotes h := by
  rw [Denotes, entries_with, Denotes]

theorem Sound.rootLevel {strict : Prop} (hc : c.Sound strict)
    {root : Node (Children c.declaration.inner)} (hroot : c.root = some root) :
    root.controller.level = c.declaration.outer := by
  obtain ⟨id, hs⟩ := hc.tree root hroot
  exact congrArg Post.level hs.manned.stands

theorem Sound.issued {strict : Prop} (hc : c.Sound strict) :
    c.Tends Setting.Issued (c.books, c.Denotes) c.descriptor c.statements where
  descriptor := rfl
  statements := rfl
  idle _ _ := ⟨.refl _, by simp⟩
  tree root hroot :=
    ⟨hc.rootLevel hroot, .refl _, fun _ hh => .inl ((denotes_iff hroot).2 hh)⟩

theorem teardown_eq (runtime : Runtime) (statementLevel : Bool) (c : Context) :
    ∃ books, c.books.Advances books ∧ books.ids = c.books.ids.clear ∧
      (teardown runtime statementLevel c).2 = { c with root := none, books } := by
  have hclear {b : Books} (hb : c.books.Advances b) :
      c.books.Advances { b with ids := b.ids.clear }.updateGauge ∧
        b.ids.clear = c.books.ids.clear :=
    ⟨hb.cleared.updateGauge, congrArg PartitionIds.new hb.reuse⟩
  simp only [teardown]
  split
  · next root hroot =>
      obtain ⟨hadvances, hids⟩ := hclear (Books.Advances.closeAll (.refl c.books))
      exact ⟨_, hadvances, hids, rfl⟩
  · obtain ⟨hadvances, hids⟩ := hclear (.refl c.books)
    exact ⟨_, hadvances, hids, rfl⟩

theorem teardown_onward {statementLevel : Bool} :
    c.Onward (teardown runtime statementLevel c).2 := by
  obtain ⟨books, hadvances, -, heq⟩ := teardown_eq runtime statementLevel c
  rw [heq]
  exact .of_none hadvances rfl

theorem Sound.attach_onward {strict : Prop} (hc : c.Sound strict) {s : Statement} :
    c.Onward (attach runtime s c).2 := by
  have hidle : (c.withStatement s).Tends Setting.Issued (c.books, c.Denotes) c.descriptor
      (c.withStatement s).statements := ⟨rfl, rfl, hc.issued.idle, hc.issued.tree⟩
  have hawaken (hroot : c.root = none) : Ends _ _ (awaken runtime (c.withStatement s)) :=
    awaken_tends (fun env _ _ => Setting.issued_upkeep env) hidle hroot
  have hcase := attaches runtime s c
  generalize attach runtime s c = o at hcase ⊢
  cases hcase with
  | taken | unfit => exact .refl c
  | joined _ hroot heq =>
      obtain ⟨⟨hcontroller, hhandles⟩, hbooks⟩ := Setting.startEverywhere_handles.congr heq
      exact .of_same hroot rfl hbooks (hcontroller ▸ hhandles)
  | @unjoined _ _ books _ _ heq =>
      have hbooks : c.books.Notes books := Setting.startEverywhere_handles.congr heq
      exact ⟨hbooks.advances, fun _ hh => .inl (denotes_with.1 hh)⟩
  | awoken _ hroot heq =>
      obtain ⟨root, books, rfl, hrooted⟩ := (hawaken hroot).congr heq
      exact .of_rooted rfl hrooted
  | unawoken _ hroot heq =>
      obtain ⟨root, books, rfl, hrooted⟩ := (hawaken hroot).congr heq
      exact (Onward.of_rooted rfl hrooted).trans teardown_onward

theorem detach_onward {id : StatementId} :
    c.Onward (detach runtime id c).2 := by
  have hwithout : c.Onward (c.withoutStatement id) :=
    ⟨.refl _, fun _ hh => .inl (denotes_with.1 hh)⟩
  have hcase := detaches runtime id c
  generalize detach runtime id c = o at hcase ⊢
  cases hcase with
  | unknown => exact .refl c
  | last => exact hwithout.trans teardown_onward
  | @departed root _ _ _ _ _ hroot heq =>
      have hstop := Setting.stopEverywhere_handles ((c.withoutStatement id).setting runtime) id root
        c.books
      rw [heq] at hstop
      obtain ⟨⟨hcontroller, hhandles⟩, hbooks⟩ := hstop
      exact .of_same hroot rfl hbooks (hcontroller ▸ hhandles)
  | idle => exact hwithout

theorem Sound.perform_onward {strict : Prop} (hc : c.Sound strict) {op : Operation} :
    c.Onward (perform runtime op c).2 := by
  have hinner (hop : op.Inner) : c.Onward (perform runtime op c).2 := by
    have hkeeps : Keeps (Tends Setting.Issued (c.books, c.Denotes) c.descriptor c.statements)
        (perform runtime op) :=
      tends_perform (fun env _ _ => Setting.issued_upkeep env) hop fun _ _ _ => trivial
    exact .of_tends (hkeeps c hc.issued).state
  cases op with
  | attach s => exact hc.attach_onward
  | detach id => exact detach_onward
  | _ => exact hinner trivial

def Runs : Context → Context → Prop :=
  Relation.ReflTransGen fun c c' => ∃ runtime op, c' = (perform runtime op c).2

theorem Reachable.runs (h : Reachable (fun _ => True) c) (hrun : c.Runs c') :
    Reachable (fun _ => True) c' ∧ c.Onward c' := by
  induction hrun with
  | refl => exact ⟨h, .refl c⟩
  | tail _ hstep ih =>
      obtain ⟨runtime, op, rfl⟩ := hstep
      obtain ⟨hreach, honward⟩ := ih
      have hsound : Sound False _ := hreach.sound False.elim
      exact ⟨hreach.step runtime op trivial, honward.trans hsound.perform_onward⟩

theorem Onward.stale (h : c.Onward c') {g : Handle} (hgiven : g.Given c.books)
    (hstale : ¬ c.Denotes g) : ¬ c'.Denotes g :=
  fun hlive => (h.handles g hlive).elim hstale fun hnew => hnew hgiven

theorem with_root {root : Node (Children c.declaration.inner)} (hroot : c.root = some root) :
    ({ c with root := some root } : Context) = c := by
  rw [← hroot]

theorem terminate_stale {termination : Option Props} (hstale : ¬ c.Denotes h) :
    terminate runtime h termination c = (.ok (), c) := by
  rcases atController_cases c h.owner (fun below _ => (c.setting runtime).endAt h termination below)
    (.ok (), c) with ⟨heq, -⟩ | ⟨root, root', deep, way, n, hroot, hid, hgraft, heq⟩
  · exact heq
  · have hend : (c.setting runtime).endAt h termination deep (n, c.books) =
        (.ok (), (n, c.books)) := by
      refine Setting.endAt_stale fun hlive => hstale ?_
      obtain ⟨parent, place, depth, hentry⟩ := hgraft.entry_mem none 0 1
      rw [Denotes, entries_of_root hroot]
      exact ⟨_, hentry, Node.mem_handles_entry.2 hlive⟩
    rw [hend] at hgraft heq
    rw [hgraft.same] at heq
    rw [terminate, heq]
    exact congrArg (Prod.mk _) (with_root hroot)

/-- A handle under which something lived once, or that was given out and rolled back, is inert
from the moment when nothing lives under it: nothing ever will, and to end it changes nothing. -/
theorem stale_handles_inert (hreach : Reachable (fun _ => True) c) (hpast : c.Runs c')
    (hknown : c.Denotes h ∨ h.Given c'.books) (hstale : ¬ c'.Denotes h) (hfuture : c'.Runs c'') :
    ¬ c''.Denotes h ∧
      ∀ runtime termination, terminate runtime h termination c'' = (.ok (), c'') := by
  obtain ⟨hreach', hpast⟩ := hreach.runs hpast
  have hsound : c.Sound False := hreach.sound False.elim
  have hgiven : h.Given c'.books :=
    hknown.elim (fun hlive => (hsound.given hlive).advances hpast.books) id
  have hinert : ¬ c''.Denotes h := (hreach'.runs hfuture).2.stale hgiven hstale
  exact ⟨hinert, fun runtime termination => terminate_stale hinert⟩

def arrived : Context :=
  let users : Declaration :=
    { name := "users"
      outer := .keyed { name := "user", items := [⟨"Page", ["user"]⟩] }
      inner := []
      sound := by decide
      distinct := by decide }
  let opened := (perform .collecting (.attach seen) (Context.new users { reuseIds := true })).2
  (perform .collecting (.process page) opened).2

def departed : Context :=
  (perform .collecting (.terminate (.leaf ⟨0⟩ 0 0) none) arrived).2

def returned : Context := (perform .collecting (.process page) departed).2

theorem returned_stale_handle_inert : returned.Denotes (.leaf ⟨0⟩ 0 1) ∧
    ∀ runtime termination,
      terminate runtime (.leaf ⟨0⟩ 0 0) termination returned = (.ok (), returned) := by
  have harrived : Reachable (fun _ => True) arrived :=
    .step _ _ (.step _ _ (.new ..) trivial) trivial
  have hleft : arrived.Runs departed := .single ⟨_, _, rfl⟩
  have hback : departed.Runs returned := .single ⟨_, _, rfl⟩
  have hlive : arrived.Denotes (.leaf ⟨0⟩ 0 0) := by decide
  have hstale : ¬ departed.Denotes (.leaf ⟨0⟩ 0 0) := by decide
  exact ⟨by decide, (stale_handles_inert harrived hleft (.inl hlive) hstale hback).2⟩

end Context

end EventContexts
