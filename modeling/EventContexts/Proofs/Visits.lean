import EventContexts.Proofs.Lists
import EventContexts.Proofs.Staffing

namespace EventContexts

open Act

variable {ω ε α β : Type} {W : ω → Prop}

namespace Table

theorem traverseIn_ends {f : UInt32 → α → ω → Except ε β × ω} {C : UInt32 × α → β → Prop}
    {E : ε → ω → Prop} {es : List (UInt32 × α)}
    (hf : ∀ e ∈ es, ∀ w, W w → Ends (fun b w => C e b ∧ W w) E (f e.1 e.2 w))
    {w : ω} (hw : W w) :
    Ends (fun out w => List.Forall₂ (fun e e' => e.1 = e'.1 ∧ C e e'.2) es out.1 ∧ W w)
      E (traverseIn f es w) := by
  induction es generalizing w with
  | nil => exact ⟨List.Forall₂.nil, hw⟩
  | cons e es ih =>
      obtain ⟨k, a⟩ := e
      obtain ⟨hhead, htail⟩ := List.forall_mem_cons.1 hf
      have hfirst := hhead w hw
      rcases hx : f k a w with ⟨why | b, w'⟩
      · rw [hx] at hfirst
        simp only [traverseIn, hx]
        exact hfirst
      · rw [hx] at hfirst
        have hrest := ih htail hfirst.2
        rcases hy : traverseIn f es w' with ⟨why | out, w''⟩
        · rw [hy] at hrest
          simp only [traverseIn, hx, hy]
          exact hrest
        · rw [hy] at hrest
          simp only [traverseIn, hx, hy]
          exact ⟨List.Forall₂.cons ⟨rfl, hfirst.1⟩ hrest.1, hrest.2⟩

theorem traverse_ends {f : UInt32 → α → ω → Except ε β × ω} {C : UInt32 × α → β → Prop}
    {E : ε → ω → Prop} {t : Table α}
    (hf : ∀ e ∈ t.entries, ∀ w, W w → Ends (fun b w => C e b ∧ W w) E (f e.1 e.2 w))
    {w : ω} (hw : W w) :
    Ends (fun t' w => List.Forall₂ (fun e e' => e.1 = e'.1 ∧ C e e'.2) t.entries t'.entries ∧ W w)
      E (t.traverse f w) := by
  have hin := traverseIn_ends hf hw
  rcases hx : traverseIn f t.entries w with ⟨why | out, w'⟩
  · rw [hx] at hin
    simp only [traverse, hx]
    exact hin
  · rw [hx] at hin
    simp only [traverse, hx]
    exact hin

end Table

variable {below : List Level} {strict : Prop} {Q Q' : Leaf → Prop} {path : Path} {post : Post}

structure Child.Replaces (id : ControllerId) (each : UInt32 × Child below → Prop)
    (e : UInt32 × Child below) (a : Child below) : Prop where
  key : a.key = e.2.key
  handle : a.handle id e.1 = e.2.handle id e.1
  numbers : Child.numbers (e.1, a) = Child.numbers e
  each : each (e.1, a)

section

variable {id : ControllerId} {each each' : UInt32 × Child below → Prop}
  {t t' : Table (Child below)}

theorem Family.visited {brood : Brood} (h : Family strict id each brood t)
    (ht : List.Forall₂ (fun e e' => e.1 = e'.1 ∧ Child.Replaces id each' e e'.2)
      t.entries t'.entries) : Family strict id each' brood t' where
  remembered hs := by
    have hmap : t.entries.map (fun e => (e.2.key, e.2.handle id e.1)) =
        t'.entries.map fun e => (e.2.key, e.2.handle id e.1) := by
      refine List.Forall₂.map_eq (ht.imp ?_)
      rintro ⟨k, a⟩ ⟨_, a'⟩ ⟨rfl, ha⟩
      exact Prod.ext ha.key.symm ha.handle.symm
    rw [← hmap]
    exact h.remembered hs
  each := by
    refine List.Forall₂.forall_right (ht.imp ?_)
    rintro ⟨k, a⟩ ⟨_, a'⟩ ⟨rfl, ha⟩
    exact ha.each

theorem numbers_of_visited
    (ht : List.Forall₂ (fun e e' => e.1 = e'.1 ∧ Child.Replaces id each' e e'.2)
      t.entries t'.entries) :
    t'.entries.flatMap Child.numbers = t.entries.flatMap Child.numbers := by
  refine (List.Forall₂.flatMap_eq (ht.imp ?_)).symm
  rintro ⟨k, a⟩ ⟨_, a'⟩ ⟨rfl, ha⟩
  exact ha.numbers.symm

end

structure Node.Revised (Q : Leaf → Prop) (strict : Prop) (path : Path) (post : Post)
    (node n : Node (Children below)) : Prop where
  sound : n.Sound Q strict below path post
  controller : n.controller = node.controller
  numbers : n.children.numbers = node.children.numbers

theorem revised_of_visited {node : Node (Children below)} {children : Children below}
    (h : node.Sound Q strict below path post)
    (ht : List.Forall₂ (fun e e' => e.1 = e'.1 ∧
      Child.Replaces post.id (Child.Sound Q' strict below path post) e e'.2)
      node.children.table.entries children.table.entries) :
    node.Revised Q' strict path post { node with children } := by
  have hfamily := Family.visited h.tended.holds ht
  refine ⟨⟨h.stands, h.tended.level, h.tended.sound, hfamily⟩, rfl, ?_⟩
  rw [Children.numbers_eq, Children.numbers_eq]
  exact numbers_of_visited ht

theorem Node.Revised.replaces {l : Level} {k : UInt32} {b : Branch (Children below)}
    {n : Node (Children below)}
    (h : Node.Revised Q strict (path ++ [⟨post.level, b.key, b.properties⟩])
      ⟨b.node.controller.id, k, post.nesting + 1, l⟩ b.node n) :
    Child.Replaces post.id (Child.Sound Q strict (l :: below) path post)
      (k, b) { b with node := n } := by
  have hid := congrArg Controller.id h.controller
  refine ⟨rfl, congrArg (Handle.branch post.id k) hid, ?_, ?_⟩
  · exact congrArg₂ List.cons (congrArg Number.controller hid) h.numbers
  · refine Child.sound_branch.2 ?_
    rw [hid]
    exact h.sound

theorem Branch.visit_ends {γ : Type} {f : Node γ → ω → Except ε (Node γ) × ω} {b : Branch γ} {w : ω}
    {T : Branch γ → ω → Prop} {E : ε → ω → Prop}
    (h : Ends (fun n w => T { b with node := n } w) E (f b.node w)) :
    Ends T E (b.visit f w) := by
  rw [Branch.visit]
  split
  · next n w' heq => exact h.congr heq
  · next why w' heq => exact h.congr heq

theorem Node.traverseLeaves_ends {f : Leaf → ω → Except ε Running × ω}
    (hf : ∀ ℓ w, Q ℓ → W w → Ends
      (fun r w => (∃ agents, r = { ℓ.running with agents } ∧ Q' (ℓ.withAgents agents)) ∧ W w)
      (fun _ => W) (f ℓ w))
    {node : Node (Children below)} (h : node.Sound Q strict below path post) {w : ω} (hw : W w) :
    Ends (fun n w => node.Revised Q' strict path post n ∧ W w) (fun _ => W)
      (node.traverseLeaves f below path w) := by
  induction below generalizing path post w with
  | nil =>
      let t : Table Running := node.children
      let visit (p : UInt32) (r : Running) : ω → Except ε Running × ω :=
        f ⟨path ++ [node.step r.key r.properties], node.controller.id, p, r⟩
      have hpost : post = node.controller.post := h.stands.symm
      subst hpost
      have hvisit : ∀ e ∈ t.entries, ∀ w, W w → Ends
          (fun (r : Running) w => Child.Replaces node.controller.id
            (Child.Sound Q' strict [] path node.controller.post) e r ∧ W w)
          (fun _ => W) (visit e.1 e.2 w) := by
        intro e he w hw
        refine (hf _ w (h.tended.holds.each e he) hw).imp ?_ fun _ _ hw => hw
        rintro _ w' ⟨⟨agents, rfl, hQ'⟩, hw'⟩
        exact ⟨⟨rfl, rfl, rfl, hQ'⟩, hw'⟩
      have hdone := Table.traverse_ends hvisit hw
      simp only [Node.traverseLeaves]
      split
      · next t' w' heq =>
          obtain ⟨ht, hw'⟩ := hdone.congr heq
          exact ⟨revised_of_visited h ht, hw'⟩
      · next why w' heq => exact hdone.congr heq
  | cons l below ih =>
      let t : Table (Branch (Children below)) := node.children
      have hpost : post = node.controller.post := h.stands.symm
      subst hpost
      let visit (_ : UInt32) (b : Branch (Children below)) :
          ω → Except ε (Branch (Children below)) × ω :=
        b.visit (Node.traverseLeaves f below (path ++ [node.step b.key b.properties]))
      have hvisit : ∀ e ∈ t.entries, ∀ w, W w → Ends
          (fun (b : Branch (Children below)) w => Child.Replaces node.controller.id
            (Child.Sound Q' strict (l :: below) path node.controller.post) e b ∧ W w)
          (fun _ => W) (visit e.1 e.2 w) := by
        rintro ⟨k, b⟩ he w hw
        have hbranch := ih (Child.sound_branch.1 (h.tended.holds.each (k, b) he)) hw
        refine Branch.visit_ends (hbranch.imp ?_ fun _ _ hw' => hw')
        exact fun n w' hn => ⟨hn.1.replaces, hn.2⟩
      have hdone := Table.traverse_ends hvisit hw
      simp only [Node.traverseLeaves]
      split
      · next t' w' heq =>
          obtain ⟨ht, hw'⟩ := hdone.congr heq
          exact ⟨revised_of_visited h ht, hw'⟩
      · next why w' heq => exact hdone.congr heq

end EventContexts
