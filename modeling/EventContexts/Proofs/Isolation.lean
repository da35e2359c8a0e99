import EventContexts.Proofs.Arena
import EventContexts.Proofs.TwinContexts

namespace EventContexts

open Act

def Operation.statement? : Operation → Option StatementId
  | .attach s => some s.id
  | .detach id => some id
  | _ => none

def Operation.named (ops : List Operation) (id : StatementId) : Bool :=
  ops.any fun op => decide (op.statement? = some id)

def Operation.within (keep : StatementId → Bool) (op : Operation) : Bool :=
  op.statement?.all keep

def Entry.bare (x : Entry) : Entry :=
  { x with instances := x.instances.map fun (p, r) => (p, { r with agents := [] }) }

def Agent.sight (a : Agent) : List Event × Addendum × Event :=
  (a.rows, a.addendum, a.request.builtin)

def Running.sights (id : StatementId) (r : Running) : List (List Event × Addendum × Event) :=
  (r.agents.filter fun a => a.runs id).map Agent.sight

section

variable {keep : StatementId → Bool} {runtime : Runtime} {below : List Level}
  {n n' : Node (Children below)}

theorem Running.sights_share {id : StatementId} (hkeep : keep id = true) (r : Running) :
    (r.share keep).sights id = r.sights id := by
  have hruns (a : Agent) : (a.plain.runs id && keep a.plain.statement.id) = a.runs id := by
    have hkept : a.runs id = true → keep a.statement.id = true := by
      intro h
      rwa [eq_of_beq h]
    exact Bool.and_eq_left_iff_imp.2 hkept
  have hsight (a : Agent) : a.plain.sight = a.sight := rfl
  simp only [sights, share, List.filter_filter, List.filter_map, List.map_map, Function.comp_def,
    hruns, hsight]

theorem Running.Twins.sights {id : StatementId} {r r' : Running} (h : r.Twins keep runtime r')
    (hkeep : keep id = true) : r.sights id = r'.sights id := by
  rw [← sights_share hkeep r, ← sights_share hkeep r', h.share]

theorem Running.Twins.bare {r r' : Running} (h : r.Twins keep runtime r') :
    { r with agents := [] } = { r' with agents := [] } :=
  (congrArg (fun r => { r with agents := [] }) h.share :
    { r.share keep with agents := [] } = { r'.share keep with agents := [] })

theorem Node.bare_entry_twins (hn : n.Rel (Children.Twins keep runtime below) n')
    (parent : Option ControllerId) (place : UInt32) (depth : Nat) :
    (n.entry below parent place depth).bare = (n'.entry below parent place depth).bare := by
  cases below with
  | nil =>
      have hpartitions : Table.Rel (Running.Twins keep runtime) n.children n'.children :=
        hn.children
      simp only [entry, Entry.bare, hn.controller, Entry.mk.injEq, true_and]
      refine List.Forall₂.map_eq (hpartitions.imp ?_)
      rintro ⟨p, r⟩ ⟨_, r'⟩ ⟨rfl, hr : r.Twins keep runtime r'⟩
      exact Prod.ext rfl hr.bare
  | cons l below =>
      have hbranches : Table.Rel (Branch.Rel (Children.Twins keep runtime below)) n.children
        n'.children := hn.children
      simp only [entry, Entry.bare, hn.controller, Entry.mk.injEq, true_and, and_true]
      refine List.Forall₂.map_eq (hbranches.imp ?_)
      rintro ⟨k, b⟩ ⟨_, b'⟩ ⟨rfl, hb : b.Rel (Children.Twins keep runtime below) b'⟩
      simp only [hb.key, hb.node.controller]

theorem Node.bare_entries_twins (hn : n.Rel (Children.Twins keep runtime below) n')
    (parent : Option ControllerId) (place : UInt32) (depth : Nat) :
    (n.entries below parent place depth).map Entry.bare =
      (n'.entries below parent place depth).map Entry.bare := by
  induction below generalizing parent place depth with
  | nil => exact congrArg (fun x => [x]) (bare_entry_twins hn parent place depth)
  | cons l below ih =>
      have hbranches : Table.Rel (Branch.Rel (Children.Twins keep runtime below)) n.children
        n'.children := hn.children
      rw [entries, entries, List.map_cons, List.map_cons, List.map_flatMap, List.map_flatMap,
        bare_entry_twins hn, hn.controller]
      refine congrArg _ (List.Forall₂.flatMap_eq (hbranches.imp ?_))
      rintro ⟨k, b⟩ ⟨_, b'⟩ ⟨rfl, hb : b.Rel (Children.Twins keep runtime below) b'⟩
      exact ih hb.node ..

end

namespace Context

def sights (c : Context) (id : StatementId) (p : UInt32) : List (List Event × Addendum × Event) :=
  (c.leaves.filter fun ℓ => ℓ.partition = p).flatMap fun ℓ => ℓ.running.sights id

structure SameTo (id : StatementId) (c c' : Context) : Prop where
  tree : c.entries.map Entry.bare = c'.entries.map Entry.bare
  allocated : c.allocatedIds = c'.allocatedIds
  sights : ∀ p, c.sights id p = c'.sights id p

def answer (runtime : Runtime) : Operation → Act Context (Option Handle)
  | .instantiate originator r => do
      let h ← instantiate runtime originator r
      pure (some h)
  | op => do
      perform runtime op
      pure none

def history (runtime : Runtime) : List Operation → Context →
    List (Operation × Except Error (Option Handle)) × Context
  | [], c => ([], c)
  | op :: rest, c =>
      let (r, c) := answer runtime op c
      let (answers, c) := history runtime rest c
      ((op, r) :: answers, c)

section runs

variable {keep : StatementId → Bool} {anchor : StatementId} {runtime : Runtime} {c c' : Context}
  {id : StatementId} {op : Operation} {ops : List Operation}

theorem Twins.sameTo (h : c.Twins keep anchor runtime c') (hkeep : keep id = true) :
    c.SameTo id c' := by
  cases h with
  | intro c rolls node books =>
      refine ⟨Node.bare_entries_twins node none 0 1, congrArg PartitionIds.ids books.ids,
        fun p => ?_⟩
      have hleaves := Node.leaves_twins node []
      refine List.Forall₂.flatMap_eq ((List.rel_filter ?_ hleaves).imp fun _ _ hℓ =>
        hℓ.running.sights hkeep)
      intro ℓ ℓ' hℓ
      simp only [hℓ.partition]

theorem perform_eq_answer : perform runtime op c =
    ((answer runtime op c).1.map fun _ => (), (answer runtime op c).2) := by
  have hmap {α β : Type} (x : Act Context α) (f : α → β) :
      (x >>= fun a => pure (f a)) c = ((x c).1.map f, (x c).2) := by
    rw [bind_apply]
    rcases x c with ⟨_ | a, c'⟩ <;> rfl
  have hunit (x : Act Context Unit) : x c =
      (((x >>= fun _ => pure (none : Option Handle)) c).1.map fun _ => (),
        ((x >>= fun _ => pure (none : Option Handle)) c).2) := by
    rw [hmap]
    rcases x c with ⟨_ | a, c'⟩ <;> rfl
  cases op with
  | instantiate originator r =>
      simp only [perform, answer, hmap]
      cases (instantiate runtime originator r c).1 <;> rfl
  | _ => exact hunit _

theorem alike_answer (hruntime : runtime.Unfailing) (hkeep : op.within keep = true)
    (hstays : op ≠ .detach anchor) :
    Alike (Context.Twins keep anchor runtime) (answer runtime op) (answer runtime op) := by
  cases op with
  | attach s => exact (alike_attach hruntime hkeep).bind fun _ => alike_pure
  | detach id =>
      have hne : id ≠ anchor := fun h => hstays (congrArg Operation.detach h)
      exact (alike_detach hruntime hkeep hne).bind fun _ => alike_pure
  | process e => exact (alike_process hruntime e).bind fun _ => alike_pure
  | advance now => exact (alike_advance hruntime now).bind fun _ => alike_pure
  | restrict level ranges => exact (alike_restrict hruntime level ranges).bind fun _ => alike_pure
  | terminate h termination =>
      exact (alike_terminate hruntime h termination).bind fun _ => alike_pure
  | instantiate originator r =>
      exact (alike_instantiate hruntime originator r).bind fun _ => alike_pure

theorem Twins.perform_other (h : c.Twins keep anchor runtime c') (hruntime : runtime.Unfailing)
    (hanchor : keep anchor = true) (hother : op.within keep = false) :
    c.Twins keep anchor runtime (perform runtime op c').2 := by
  cases op with
  | attach s => exact h.attach_other hruntime hother
  | detach id =>
      refine h.detach_other hruntime hother ?_
      rintro rfl
      cases hanchor.symm.trans hother
  | process | advance | restrict | terminate | instantiate => cases hother

/-- The run on the right does more, but only to statements that do not matter. -/
theorem Twins.histories (h : c.Twins keep anchor runtime c') (hruntime : runtime.Unfailing)
    (hanchor : keep anchor = true) (hstays : .detach anchor ∉ ops) :
    ((history runtime ops c').1.filter fun x => x.1.within keep) =
        (history runtime (ops.filter fun op => op.within keep) c).1 ∧
      (history runtime (ops.filter fun op => op.within keep) c).2.Twins keep anchor runtime
        (history runtime ops c').2 := by
  induction ops generalizing c c' with
  | nil => exact ⟨rfl, h⟩
  | cons op rest ih =>
      rw [List.mem_cons, not_or] at hstays
      cases hop : op.within keep with
      | false =>
          -- Only the run on the right moves.
          have hstep := h.perform_other hruntime hanchor hop
          rw [perform_eq_answer] at hstep
          obtain ⟨hanswers, hfinal⟩ := ih hstep hstays.2
          simp only [history, List.filter_cons, hop, Bool.false_eq_true, if_false]
          exact ⟨hanswers, hfinal⟩
      | true =>
          obtain ⟨hresult, hstep⟩ := (alike_answer hruntime hop (Ne.symm hstays.1)).run h
          obtain ⟨hanswers, hfinal⟩ := ih hstep hstays.2
          simp only [history, List.filter_cons, hop, if_true, hresult, hanswers]
          exact ⟨trivial, hfinal⟩

end runs

/-- While a statement stays attached, attachments and detachments of statements that a run does not
name show neither in what its operations answer nor in what it leaves to that statement. -/
theorem statements_isolated {runtime : Runtime} (hruntime : runtime.Unfailing)
    {declaration : Declaration} {options : Options} {metrics : Option Metrics}
    {recovery : Option (List Assignment)} {s : Statement} {σ τ : List Operation}
    (hattach : (attach runtime s (Context.new declaration options metrics recovery)).1 = .ok ())
    (hstays : .detach s.id ∉ σ)
    (hinserted : (τ.filter fun op => op.within (Operation.named (.attach s :: σ))) = σ) :
    let start := Context.new declaration options metrics recovery
    let one := history runtime (.attach s :: σ) start
    let other := history runtime (.attach s :: τ) start
    (other.1.filter fun x => x.1.within (Operation.named (.attach s :: σ))) = one.1 ∧
      one.2.SameTo s.id other.2 := by
  intro start one other
  have hnamed : Operation.named (.attach s :: σ) s.id = true := by
    simp [Operation.named, Operation.statement?]
  have hfirst : (Operation.attach s).within (Operation.named (.attach s :: σ)) = true := hnamed
  have hstays' : .detach s.id ∉ τ := by
    intro h
    refine hstays (hinserted ▸ List.mem_filter.2 ⟨h, ?_⟩)
    exact hnamed
  obtain ⟨c, hc⟩ : ∃ c, attach runtime s start = (.ok (), c) := ⟨_, Prod.ext hattach rfl⟩
  have hanswer : (answer runtime (.attach s) start).2 = c := by
    have hperform : perform runtime (.attach s) start = (.ok (), c) := hc
    rw [perform_eq_answer] at hperform
    exact (Prod.mk.inj hperform).2
  obtain ⟨hanswers, hfinal⟩ :=
    (twins_of_attach hruntime rfl hc).histories hruntime hnamed hstays'
  rw [hinserted] at hanswers hfinal
  simp only [one, other, history, hanswer, List.filter_cons, hfirst, if_true, hanswers]
  exact ⟨trivial, hfinal.sameTo hnamed⟩

def guest : Statement := ⟨⟨2⟩, "guest", [⟨0, { eventType := "Page" }⟩]⟩

def twoVisits : List Operation := [.process page, .advance 20, .process page]

def guestVisits : List Operation :=
  [.process page, .attach guest, .attach guest, .advance 20, .detach ⟨3⟩, .process page,
    .detach guest.id]

theorem statements_isolated_guest :
    let start := Context.new visited.declaration
    let one := history .collecting (.attach seen :: twoVisits) start
    let other := history .collecting (.attach seen :: guestVisits) start
    (other.1.map fun x => x.2.toOption.isSome) =
        [true, true, true, false, true, false, true, true] ∧
      (other.2.sights seen.id 1).map Prod.fst = [[page]] ∧
      (other.1.filter fun x => x.1.within (Operation.named (.attach seen :: twoVisits))) = one.1 ∧
      one.2.SameTo seen.id other.2 := by
  refine ⟨by decide +kernel, by decide +kernel, ?_⟩
  exact statements_isolated Runtime.unfailing_collecting rfl (by simp [twoVisits]) rfl

end Context

end EventContexts
