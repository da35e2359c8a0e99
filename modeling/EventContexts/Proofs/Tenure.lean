import EventContexts.Proofs.Custody
import EventContexts.Proofs.Regimes
import EventContexts.Proofs.Staleness

namespace EventContexts

open Act

section tenure

variable {ρ : Type} {M : Manners} {P : Level → Request → Prop}
  {J : ρ → (below : List Level) → Post → Children below × Books → Prop} {x : ρ}

/-- To `J` it makes no difference who works in the partitions, nor what the log says of it. -/
def Setting.Overlooks
    (J : ρ → (below : List Level) → Post → Children below × Books → Prop) : Prop :=
  ∀ {x : ρ} {below : List Level} {node n : Node (Children below)} {b b' : Books}, node.Kin n →
    n.children.handles node.controller.id = node.children.handles node.controller.id →
    b.Notes b' → J x below node.controller.post (node.children, b) →
    J x below node.controller.post (n.children, b')

namespace Context

variable {c : Context} {runtime : Runtime} {shape : Descriptor} {ss : List Statement}
  {s : Statement} {id : StatementId}

theorem Planted.tended {root : Node (Children c.declaration.inner)}
    (h : c.Planted M J x (root, c.books)) (hroot : c.root = some root) :
    c.Tended M J x c.descriptor c.statements where
  descriptor := rfl
  statements := rfl
  idle hnone := nomatch hnone.symm.trans hroot
  tree root' hroot' := by
    obtain rfl := Option.some.inj (hroot.symm.trans hroot')
    exact h

namespace Tended

variable (hJ : Setting.Overlooks J)

include hJ

theorem revised (h : c.Tended M J x shape ss) {root root' : Node (Children c.declaration.inner)}
    (hroot : c.root = some root) (hkin : root.Kin root')
    (hhandles : root'.children.handles root.controller.id =
      root.children.handles root.controller.id) {books : Books} (hbooks : c.books.Notes books)
    (statements : List Statement) :
    ({ c with statements, root := some root', books } : Context).Tended M J x c.descriptor
      statements := by
  obtain ⟨hlevel, -, hknows, hchildren⟩ := h.tree root hroot
  have hsame := hkin.controller
  let revised : Context := { c with statements, root := some root', books }
  have hplanted : revised.Planted M J x (root', books) := by
    refine ⟨hsame ▸ hlevel, rfl, hsame ▸ hknows, ?_⟩
    rw [hsame]
    exact hJ hkin hhandles hbooks hchildren
  exact hplanted.tended rfl

theorem attach (h : c.Tended M J x c.descriptor c.statements) (hM : M.Lawful)
    (hup : ∀ env : Setting, env.descriptor = c.descriptor → env.statements ≠ [] →
      env.Custody M P J)
    (hhands : c.root = none → M.hands c.declaration.outer c.activation) :
    (attach runtime s c).2.root = none ∨ (attach runtime s c).2.Tended M J x c.descriptor
      (attach runtime s c).2.statements := by
  have hcase := attaches runtime s c
  generalize Context.attach runtime s c = o at hcase ⊢
  cases hcase with
  | taken | unfit => exact .inr h
  | joined _ hroot heq =>
      obtain ⟨⟨-, hhandles⟩, hbooks⟩ := Setting.startEverywhere_handles.congr heq
      exact .inr (h.revised hJ hroot (Setting.startEverywhere_kin.congr heq) hhandles hbooks _)
  | @unjoined root _ books _ hroot heq =>
      have hbooks : c.books.Notes books := Setting.startEverywhere_handles.congr heq
      have hsame : root.Kin root := ⟨rfl, rfl, fun _ hall => hall, fun _ _ heach => heach⟩
      exact .inr (with_root (c := { c with books }) hroot ▸
        h.revised hJ hroot hsame rfl hbooks c.statements)
  | awoken _ hroot heq =>
      have hidle : (c.withStatement s).Tended M J x c.descriptor (c.withStatement s).statements :=
        ⟨rfl, rfl, h.idle, fun root hsome => nomatch hroot.symm.trans hsome⟩
      have hss : (c.withStatement s).statements ≠ [] :=
        List.append_ne_nil_of_right_ne_nil _ (List.cons_ne_nil s [])
      have hawaken : Ends _ _ (awaken runtime (c.withStatement s)) :=
        awaken_planted hM (fun env hshape henv => hup env hshape (henv ▸ hss)) hidle hroot
          (hhands hroot)
      obtain ⟨root, books, rfl, hplanted⟩ := hawaken.congr heq
      let alive : Context := { c.withStatement s with root := some root, recovery := none, books }
      have hgrown : alive.Planted M J x (root, books) := ⟨hplanted.level, hplanted.minded⟩
      exact .inr (hgrown.tended rfl)
  | @unawoken _ c' =>
      obtain ⟨books, -, -, htorn⟩ := teardown_eq runtime false (c'.withoutStatement s.id)
      rw [htorn]
      exact .inl rfl

theorem detach (h : c.Tended M J x c.descriptor c.statements) :
    (detach runtime id c).2.root = none ∨ (detach runtime id c).2.Tended M J x c.descriptor
      (detach runtime id c).2.statements := by
  have hcase := detaches runtime id c
  generalize Context.detach runtime id c = o at hcase ⊢
  cases hcase with
  | unknown => exact .inr h
  | last =>
      obtain ⟨books, -, -, htorn⟩ := teardown_eq runtime true (c.withoutStatement id)
      rw [htorn]
      exact .inl rfl
  | @departed root _ _ _ _ _ hroot heq =>
      let env := (c.withoutStatement id).setting runtime
      have hhandles := env.stopEverywhere_handles id root c.books
      have hkin := env.stopEverywhere_kin id root c.books
      rw [heq] at hhandles hkin
      exact .inr (h.revised hJ hroot hkin.1 hhandles.1.2 hhandles.2 _)
  | idle _ _ hroot => exact .inl hroot

theorem perform (h : c.Tended M J x c.descriptor c.statements) (hsound : c.Sound False)
    (hM : M.Lawful)
    (hup : ∀ env : Setting, env.descriptor = c.descriptor → env.statements ≠ [] →
      env.Custody M P J)
    (hhands : c.root = none → M.hands c.declaration.outer c.activation) {op : Operation}
    (hr : ∀ r l, op.Asks r → P l r) :
    (perform runtime op c).2.root = none ∨ (perform runtime op c).2.Tended M J x c.descriptor
      (perform runtime op c).2.statements := by
  have hinner (hop : op.Inner) : (Context.perform runtime op c).2.root = none ∨
      (Context.perform runtime op c).2.Tended M J x c.descriptor
        (Context.perform runtime op c).2.statements := by
    have hstays : (Context.perform runtime op c).2.statements = c.statements :=
      (inward_perform hop).statements
    have hsound' : (Context.perform runtime op c).2.Sound False :=
      (keeps_perform (fun hfalse => hfalse.elim) c hsound).state
    cases hroot : (Context.perform runtime op c).2.root with
    | none => exact .inl rfl
    | some root =>
        have hss : c.statements ≠ [] := hstays ▸ hsound'.active.1 (by rw [hroot]; rfl)
        have hkeeps : Keeps (Tended M J x c.descriptor c.statements)
            (Context.perform runtime op) :=
          tended_perform hM (fun env hshape henv => hup env hshape (henv ▸ hss)) hop hr
        exact .inr (hstays ▸ (hkeeps c h).state)
  cases op with
  | attach s => exact h.attach hJ hM hup hhands
  | detach id => exact h.detach hJ
  | _ => exact hinner trivial

end Tended

end Context

end tenure

end EventContexts
