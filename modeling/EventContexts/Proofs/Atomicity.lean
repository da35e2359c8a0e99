import EventContexts.Proofs.Settlement
import EventContexts.Proofs.Staleness

namespace EventContexts

open Act

namespace Setting

variable {env : Setting} {below : List Level} {path : Path} {owner : Controller} {r : Request}
  {b : Books}

theorem startPartition_error {partitions : Table Running} :
    Ends (fun _ _ => True) (fun _ s => s.1 = partitions)
      (env.startPartition owner path r (partitions, b)) := by
  simp only [startPartition]
  split
  · rfl
  · split
    · rfl
    · split
      · rfl
      · trivial

theorem startChild_error {children : Children below} :
    Ends (fun _ _ => True) (fun _ s => s.1 = children)
      (env.startChild below path owner r (children, b)) := by
  cases below with
  | nil => exact startPartition_error
  | cons m below =>
      simp only [startChild]
      split
      · rfl
      · split
        · trivial
        · rfl

theorem startAt_error {node : Node (Children below)} :
    Ends (fun _ _ => True) (fun _ s => s.1 = node) (env.startAt r below path (node, b)) := by
  have hstart : Ends (fun _ _ => True) (fun _ s => s.1 = node.children)
      (env.startChild below path node.controller r (node.children, b)) := startChild_error
  rcases hx : env.startChild below path node.controller r (node.children, b)
    with ⟨e | h, children, b'⟩
  · obtain rfl : children = node.children := hstart.congr hx
    simp only [startAt, hx]
    rfl
  · simp only [startAt, hx]
    trivial

end Setting

namespace Context

variable {c c' : Context} {runtime : Runtime} {originator : ControllerId} {r : Request} {e : Error}
  {s : Statement}

theorem instantiate_error (h : instantiate runtime originator r c = (.error e, c')) :
    c' = { c with books := c'.books } := by
  rcases atController_cases c originator ((c.setting runtime).startAt r)
    (.error (.controllerUnknown originator), c) with
    ⟨heq, -⟩ | ⟨root, root', deep, way, n, hroot, -, hgraft, heq⟩
  · obtain ⟨-, rfl⟩ := Prod.mk.inj (heq.symm.trans h)
    rfl
  · have hstart : Ends (fun _ _ => True) (fun _ s => s.1 = n)
        ((c.setting runtime).startAt r deep way (n, c.books)) := Setting.startAt_error
    rcases hx : (c.setting runtime).startAt r deep way (n, c.books) with ⟨outcome, n', books⟩
    rw [hx] at hgraft heq hstart
    obtain ⟨rfl, rfl⟩ := Prod.mk.inj (heq.symm.trans h)
    obtain rfl : n' = n := hstart
    rw [hgraft.same, ← hroot]

theorem Sound.inUse_of_books {strict : Prop} {books : Books} (hc : c.Sound strict)
    (hc' : ({ c with books } : Context).Sound strict) : books.ids.inUse = c.books.ids.inUse := by
  refine PartitionIds.inUse_eq_of_ids (List.eq_of_perm_of_ascending books.ids.inUse.ascending
    c.books.ids.inUse.ascending ?_)
  cases hroot : c.root with
  | none => exact (hc'.idle hroot).partitions.trans (hc.idle hroot).partitions.symm
  | some root =>
      have hafter := (hc'.tree root hroot).accounts.partitions
      exact hafter.trans (hc.tree root hroot).accounts.partitions.symm

theorem agents_with {books : Books} : ({ c with books } : Context).agents = c.agents := by
  simp only [agents, leaves]
  cases c.root <;> rfl

theorem Settled.balance_since {books : Books} {calls : Trace} (h : c.Settled)
    (h' : ({ c with books } : Context).Settled) (hcalls : books.trace = c.books.trace ++ calls) :
    calls.started.Perm calls.stopped := by
  have hbefore := h.balance.2
  have hafter := h'.balance.2
  simp only [agents_with, hcalls, Trace.started_append, Trace.stopped_append,
    List.append_assoc] at hafter
  refine (List.perm_append_left_iff c.books.trace.started).1 ?_
  refine hafter.trans (List.Perm.trans ?_ (hbefore.symm.append_right _))
  rw [List.append_assoc]
  exact List.perm_append_comm.append_left _

/-- A child that cannot be started leaves no trace but in the log and the counters: the tree is
the one from before, and every instance that was started on the way has been stopped. -/
theorem instantiate_atomic (hreach : Reachable (fun _ => True) c)
    (herror : instantiate runtime originator r c = (.error e, c')) :
    c' = { c with books := c'.books } ∧
      c'.books.ids =
        { next := c'.books.ids.next
          inUse := c.books.ids.inUse
          released := c'.books.ids.released
          reuse := c.books.ids.reuse } ∧
      ∃ calls, c'.books.trace = c.books.trace ++ calls ∧ calls.started.Perm calls.stopped := by
  let op : Operation := .instantiate originator r
  have hstep : (perform runtime op c).2 = c' := by
    simp only [op, perform, bind_apply, herror]
  have hsound : c.Sound False := hreach.sound False.elim
  have honward : c.Onward (perform runtime op c).2 := hsound.perform_onward
  have hreach' : Reachable (fun _ => True) (perform runtime op c).2 :=
    hreach.step runtime op trivial
  rw [hstep] at honward hreach'
  have hsound' : c'.Sound False := hreach'.sound False.elim
  have hsettled' := hreach'.settled
  have hsame := instantiate_error herror
  rw [hsame] at hsound' hsettled'
  refine ⟨hsame, ?_, ?_⟩
  · rw [← hsound.inUse_of_books hsound', ← honward.books.reuse]
  · obtain ⟨calls, hcalls⟩ := honward.books.trace
    exact ⟨calls, hcalls.symm, hreach.settled.balance_since hsettled' hcalls.symm⟩

def rota : Declaration :=
  { name := "rota"
    outer := .keyed { name := "user", items := [⟨"Page", ["user"]⟩] }
    inner :=
      [.category { name := "team", eventType := "Page", items := [⟨"red", []⟩, ⟨"blue", []⟩] }]
    sound := by decide
    distinct := by decide }

/-- Starts one instance and no other, and fails every stop. -/
def reluctant : Runtime :=
  { start := fun trace _ => if trace.started.isEmpty then .ok none else .error "full"
    stop := fun _ _ _ => .error "stuck" }

def rostered : Context := (perform .collecting (.attach seen) (Context.new rota)).2

def newcomer : Request := { path := 0, key := .keyed [.int 1] }

theorem rostered_instantiate_atomic : ∃ books,
    instantiate reluctant ⟨0⟩ newcomer rostered =
      (.error (.startFailed "seen" 1 "full"), { rostered with books }) ∧
    books.trace.started.length = 1 ∧ books.trace.started.Perm books.trace.stopped := by
  have hreach : Reachable (fun _ => True) rostered := .step _ _ (.new ..) trivial
  have herror : instantiate reluctant ⟨0⟩ newcomer rostered =
      (.error (.startFailed "seen" 1 "full"),
        (instantiate reluctant ⟨0⟩ newcomer rostered).2) := by rfl
  obtain ⟨hsame, -, calls, hcalls, hstopped⟩ := instantiate_atomic hreach herror
  refine ⟨_, herror.trans (congrArg (Prod.mk _) hsame), by decide +kernel, ?_⟩
  rw [hcalls]
  exact hstopped

def Cleared (c : Context) : Prop := c.root = none → c.books.ids.clear = c.books.ids

theorem Inward.cleared (hinward : c.Inward c') (h : c.Cleared) : c'.Cleared := by
  obtain ⟨root, books, now, halive, hidle⟩ := hinward
  intro hnone
  have hroot : c.root = none := by simpa [show root = none from hnone] using halive.symm
  exact (hidle hroot).symm ▸ h hroot

theorem cleared_teardown {statementLevel : Bool} :
    (teardown runtime statementLevel c).2.Cleared := fun _ => rfl

theorem isSome_awaken : (awaken runtime c).2.root.isSome = true := by
  simp only [awaken]
  split <;> rfl

theorem cleared_of_some (h : c.root.isSome = true) : c.Cleared := by
  intro hnone
  rw [hnone] at h
  cases h

theorem cleared_attach : Keeps Cleared (attach runtime s) := by
  intro c h
  have hcase := attaches runtime s c
  generalize attach runtime s c = o at hcase ⊢
  cases hcase with
  | taken | unfit => exact h
  | joined => exact cleared_of_some rfl
  | unjoined _ hroot => exact cleared_of_some (Option.isSome_iff_exists.2 ⟨_, hroot⟩)
  | awoken _ _ heq =>
      have hsome : (awaken runtime (c.withStatement s)).2.root.isSome = true := isSome_awaken
      rw [heq] at hsome
      exact cleared_of_some hsome
  | unawoken => exact cleared_teardown

theorem cleared_detach {id : StatementId} : Keeps Cleared (detach runtime id) := by
  intro c h
  have hcase := detaches runtime id c
  generalize detach runtime id c = o at hcase ⊢
  cases hcase with
  | unknown | idle => exact h
  | last => exact ends_of_state cleared_teardown
  | departed => exact ends_of_state (cleared_of_some rfl)

theorem cleared_perform {op : Operation} : Keeps Cleared (perform runtime op) := by
  have hinner (hop : op.Inner) : Keeps Cleared (perform runtime op) :=
    fun _ h => ends_of_state ((inward_perform hop).cleared h)
  cases op with
  | attach s => exact cleared_attach
  | detach id => exact cleared_detach
  | _ => exact hinner trivial

theorem Reachable.cleared {allowed : Operation → Prop} (h : Reachable allowed c) : c.Cleared := by
  induction h with
  | new => exact fun _ => rfl
  | step runtime op _ _ ih => exact (cleared_perform _ ih).state

theorem statements_attached (hnew : ¬ c.isAttached s.id = true) :
    (c.statements ++ [s]).filter (fun s' => s'.id ≠ s.id) = c.statements := by
  rw [List.filter_append, List.filter_cons_of_neg (by simp), List.filter_nil, List.append_nil]
  refine List.filter_eq_self.2 fun s' hs' => decide_eq_true fun hid => hnew ?_
  exact List.any_eq_true.2 ⟨s', hs', beq_iff_eq.2 hid⟩

theorem attach_error (hcleared : c.Cleared) (hsound : c.Sound False)
    (h : attach runtime s c = (.error e, c')) :
    c' = { c with books := c'.books } ∧ c'.books.ids = c.books.ids ∧
      c.books.Advances c'.books ∧ (c.isActive = true → c.books.Notes c'.books) := by
  have hcase := attaches runtime s c
  rw [h] at hcase
  cases hcase with
  | taken | unfit => exact ⟨rfl, rfl, .refl _, fun _ => .refl _⟩
  | @unjoined _ _ books _ _ heq =>
      have hbooks : c.books.Notes books := Setting.startEverywhere_handles.congr heq
      exact ⟨rfl, hbooks.ids, hbooks.advances, fun _ => hbooks⟩
  | unawoken hnew hroot heq =>
      have hidle : (c.withStatement s).Tends Setting.Issued (c.books, c.Denotes) c.descriptor
          (c.withStatement s).statements := ⟨rfl, rfl, hsound.issued.idle, hsound.issued.tree⟩
      have hawaken : Ends _ _ (awaken runtime (c.withStatement s)) :=
        awaken_tends (fun env _ _ => Setting.issued_upkeep env) hidle hroot
      obtain ⟨root, books, rfl, hrooted⟩ := hawaken.congr heq
      obtain ⟨books', hadvances, hids, hteardown⟩ := teardown_eq runtime false
        (({ c.withStatement s with root := some root, books } : Context).withoutStatement s.id)
      rw [hteardown]
      have hbooks : c.books.Advances books := hrooted.2.advances
      refine ⟨?_, ?_, hbooks.trans hadvances, ?_⟩
      · simp only [withoutStatement, withStatement, statements_attached hnew, ← hroot]
      · rw [hids, ← hcleared hroot]
        exact congrArg PartitionIds.new hbooks.reuse
      · intro hactive
        simp [isActive, hroot] at hactive

/-- A statement that cannot be attached changes nothing but the log, and the counters where the
context had no tree yet. -/
theorem attach_atomic (hreach : Reachable (fun _ => True) c)
    (herror : attach runtime s c = (.error e, c')) :
    c' = { c with books := c'.books } ∧ c'.books.ids = c.books.ids ∧
      c.books.nextController ≤ c'.books.nextController ∧
      c.books.nextGeneration ≤ c'.books.nextGeneration ∧
      (c.isActive = true → c'.books.nextController = c.books.nextController ∧
        c'.books.nextGeneration = c.books.nextGeneration) := by
  obtain ⟨hsame, hids, hbooks, hactive⟩ :=
    attach_error hreach.cleared (hreach.sound False.elim) herror
  exact ⟨hsame, hids, hbooks.controllers, hbooks.generations,
    fun h => ⟨(hactive h).controllers, (hactive h).generations⟩⟩

def posted : Context :=
  let teams : List Assignment :=
    [{ key := .category "red", partition := some 4 }, { key := .category "blue" }]
  Context.new rota {} none (some [{ key := .keyed [.int 1], children := teams }])

theorem posted_attach_atomic : ∃ books,
    attach reluctant seen posted =
      (.error (.startFailed "seen" 0 "full"), { posted with books }) ∧
    books.trace.started.length = 1 ∧ books.nextController = 2 := by
  have herror : attach reluctant seen posted =
      (.error (.startFailed "seen" 0 "full"), (attach reluctant seen posted).2) := by rfl
  obtain ⟨hsame, -⟩ := attach_atomic (.new ..) herror
  exact ⟨_, herror.trans (congrArg (Prod.mk _) hsame), by decide +kernel, by decide +kernel⟩

end Context

end EventContexts
