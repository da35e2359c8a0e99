import EventContexts.Proofs.Statements

namespace EventContexts

open Act

inductive Operation where
  | attach (s : Statement)
  | detach (id : StatementId)
  | process (e : Event)
  | advance (now : Int64)
  | restrict (level : Nat) (ranges : List BucketRange)
  | terminate (h : Handle) (termination : Option Props)
  | instantiate (originator : ControllerId) (r : Request)

namespace Operation

/-- Leaves it to the controllers to start children. -/
def Regular : Operation → Prop
  | .instantiate _ _ => False
  | _ => True

def Inner : Operation → Prop
  | .attach _ => False
  | .detach _ => False
  | _ => True

def Asks (r : Request) : Operation → Prop
  | .instantiate _ r' => r' = r
  | _ => False

end Operation

namespace Context

def perform (runtime : Runtime) : Operation → Act Context Unit
  | .attach s => attach runtime s
  | .detach id => detach runtime id
  | .process e => process runtime e
  | .advance now => advance runtime now
  | .restrict level ranges => restrict runtime level ranges
  | .terminate h termination => terminate runtime h termination
  | .instantiate originator r => do
      let _ ← instantiate runtime originator r

/-- Only the tree, the books and the clock differ. A tree neither comes to life nor goes, and
without one the books stay as they are. -/
inductive Inward (c : Context) : Context → Prop where
  | mk (root : Option (Node (Children c.declaration.inner))) (books : Books) (now : Int64)
      (halive : root.isSome = c.root.isSome) (hidle : c.root = none → books = c.books) :
      Inward c { c with root, books, now }

theorem Inward.refl (c : Context) : c.Inward c := .mk c.root c.books c.now rfl fun _ => rfl

theorem Inward.trans {c c' c'' : Context} (h : c.Inward c') (h' : c'.Inward c'') :
    c.Inward c'' := by
  obtain ⟨root, books, now, halive, hidle⟩ := h
  obtain ⟨root', books', now', halive', hidle'⟩ := h'
  refine .mk (c := c) root' books' now' (Eq.trans halive' halive) fun hnone => ?_
  have hroot : root = none := by simpa [hnone] using halive
  exact (hidle' hroot).trans (hidle hnone)

theorem Inward.onRoot {α : Type} {c : Context} {d : Except Error α × Context}
    {f : Node (Children c.declaration.inner) × Books →
      Option (Except Error α × (Node (Children c.declaration.inner) × Books))}
    (hd : c.Inward d.2) : c.Inward ((c.onRoot f).getD d).2 := by
  rw [Context.onRoot]
  split
  · exact hd
  · next root hroot =>
      cases f (root, c.books) with
      | none => exact hd
      | some o =>
          obtain ⟨r, root', books⟩ := o
          refine .mk (some root') books c.now (by rw [hroot]; rfl) fun hnone => ?_
          rw [hroot] at hnone
          cases hnone

theorem inward_driveEach {runtime : Runtime}
    {x : {σ : Type} → Lifecycle σ → Act (Controller × σ) Unit} {ids : List ControllerId}
    {c : Context} : c.Inward (driveEach runtime x ids c).2 := by
  have hkeeps : Keeps c.Inward (driveEach runtime x ids) :=
    triple_forEach fun _ _ c' h => ends_of_state (h.trans (.onRoot (.refl c')))
  exact (hkeeps c (.refl c)).state

theorem inward_perform {runtime : Runtime} {op : Operation} (hop : op.Inner) {c : Context} :
    c.Inward (perform runtime op c).2 := by
  cases op with
  | attach s => exact hop.elim
  | detach id => exact hop.elim
  | process e => exact .onRoot (.refl c)
  | advance now =>
      have hclock : c.Inward { c with now } := .mk c.root c.books now rfl fun _ => rfl
      exact hclock.trans inward_driveEach
  | restrict level ranges =>
      rw [perform, restrict]
      split
      · exact .refl c
      · exact inward_driveEach
  | terminate h termination => exact .onRoot (.refl c)
  | instantiate originator r =>
      have hstart : Keeps c.Inward (instantiate runtime originator r) :=
        fun c' h => ends_of_state (h.trans (.onRoot (.refl c')))
      have hkeeps : Keeps c.Inward (perform runtime (.instantiate originator r)) :=
        hstart.bind fun _ => triple_pure fun _ h => h
      exact (hkeeps c (.refl c)).state

theorem Inward.frame {c c' : Context} (h : c.Inward c') :
    c'.declaration = c.declaration ∧ c'.options = c.options := by
  obtain ⟨root, books, now, -, -⟩ := h
  exact ⟨rfl, rfl⟩

theorem Inward.statements {c c' : Context} (h : c.Inward c') : c'.statements = c.statements := by
  obtain ⟨root, books, now, -, -⟩ := h
  rfl

theorem perform_frame {runtime : Runtime} {op : Operation} {c : Context} :
    (perform runtime op c).2.declaration = c.declaration ∧
      (perform runtime op c).2.options = c.options := by
  have hinner (hop : op.Inner) : (perform runtime op c).2.declaration = c.declaration ∧
      (perform runtime op c).2.options = c.options := (inward_perform hop).frame
  cases op with
  | attach s =>
      have hawaken : (awaken runtime (c.withStatement s)).2.declaration = c.declaration ∧
          (awaken runtime (c.withStatement s)).2.options = c.options := by
        simp only [awaken]
        split <;> exact ⟨rfl, rfl⟩
      have hcase := attaches runtime s c
      rw [perform]
      generalize attach runtime s c = o at hcase ⊢
      cases hcase with
      | taken | unfit | joined | unjoined => exact ⟨rfl, rfl⟩
      | awoken _ _ heq | unawoken _ _ heq =>
          rw [heq] at hawaken
          exact hawaken
  | detach id =>
      have hcase := detaches runtime id c
      rw [perform]
      generalize detach runtime id c = o at hcase ⊢
      cases hcase <;> exact ⟨rfl, rfl⟩
  | _ => exact hinner trivial

/-- The states between operations, whether these succeed or fail. -/
inductive Reachable (allowed : Operation → Prop) : Context → Prop where
  | new (declaration : Declaration) (options : Options) (metrics : Option Metrics)
      (recovery : Option (List Assignment)) :
      Reachable allowed (Context.new declaration options metrics recovery)
  | step {c : Context} (runtime : Runtime) (op : Operation) :
      Reachable allowed c → allowed op → Reachable allowed (perform runtime op c).2

variable {allowed : Operation → Prop} {strict : Prop} {c : Context}

theorem keeps_perform {runtime : Runtime} {op : Operation} (h : strict → op.Regular) :
    Keeps (Sound strict) (perform runtime op) := by
  cases op with
  | attach s => exact keeps_attach
  | detach id => exact keeps_detach
  | process e => exact keeps_process
  | advance now => exact keeps_advance
  | restrict level ranges => exact keeps_restrict
  | terminate h termination => exact keeps_terminate
  | instantiate originator r =>
      exact (keeps_instantiate fun hstrict => h hstrict).bind fun _ => triple_pure fun _ hc => hc

theorem Reachable.sound (h : Reachable allowed c)
    (hregular : strict → ∀ op, allowed op → op.Regular) : c.Sound strict := by
  induction h with
  | new => exact sound_new
  | step runtime op _ hop ih =>
      exact (keeps_perform (fun hstrict => hregular hstrict op hop) _ ih).state

theorem Sound.leaves (h : c.Sound strict) :
    ∀ ℓ ∈ c.leaves, ℓ.Staffed c.descriptor c.statements := by
  intro ℓ hℓ
  rw [Context.leaves] at hℓ
  split at hℓ
  · next root hroot =>
      obtain ⟨id, hs⟩ := h.tree root hroot
      exact Node.Sound.leaves hs.manned ℓ hℓ
  · cases hℓ

theorem leaves_of_root {root : Node (Children c.declaration.inner)} (hroot : c.root = some root) :
    c.leaves = root.leaves c.declaration.inner [] := by
  simp only [Context.leaves, hroot]

theorem Sound.allocated (h : c.Sound strict) :
    c.allocatedIds.Perm (c.leaves.map Leaf.partition) := by
  cases hroot : c.root with
  | none =>
      rw [Context.leaves, hroot]
      exact (h.idle hroot).partitions
  | some root =>
      obtain ⟨id, hs⟩ := h.tree root hroot
      have hpartitions := hs.accounts.partitions
      have hnone : [Number.controller id].filterMap Number.partition? = [] := rfl
      rw [List.filterMap_append, Node.partitions_numbers root [], hnone, List.append_nil]
        at hpartitions
      rw [leaves_of_root hroot]
      exact hpartitions

theorem Sound.nodup_partitions (h : c.Sound strict) : (c.leaves.map Leaf.partition).Nodup :=
  h.allocated.nodup_iff.1 c.books.ids.nodup_ids

theorem Reachable.mono {allowed' : Operation → Prop} (h : Reachable allowed c)
    (hallowed : ∀ op, allowed op → allowed' op) : Reachable allowed' c := by
  induction h with
  | new declaration options metrics recovery => exact .new declaration options metrics recovery
  | step runtime op _ hop ih => exact .step runtime op ih (hallowed op hop)

theorem agents_follow_statements (h : Reachable (fun _ => True) c) :
    (∀ ℓ ∈ c.leaves, ℓ.running.agents.map Agent.statement = c.statements) ∧
      (c.statements.map Statement.id).Nodup ∧ (c.root.isSome = true ↔ c.statements ≠ []) := by
  have hsound : c.Sound False := h.sound False.elim
  exact ⟨fun ℓ hℓ => (hsound.leaves ℓ hℓ).statements, hsound.ids, hsound.active⟩

def page : Event := { type := "Page", data := OrderedMap.ofPairs [("user", .int 1)] }

def seen : Statement := ⟨⟨1⟩, "seen", [⟨0, { eventType := "Page" }⟩]⟩

def visited : Context :=
  let visits : Declaration :=
    { name := "visits"
      outer := .keyed { name := "user", items := [⟨"Page", ["user"]⟩] }
      inner := [.episode { name := "visit", start := .now, stop := .after 10 }]
      sound := by decide
      distinct := by decide }
  let pages : Statement := ⟨⟨1⟩, "pages", [⟨0, { eventType := "Page" }⟩]⟩
  let attached := (perform .collecting (.attach pages) (Context.new visits)).2
  (perform .collecting (.process page) attached).2

theorem reachable_visited : Reachable Operation.Regular visited :=
  .step _ _ (.step _ _ (.new ..) trivial) trivial

theorem visited_agents_follow_statements :
    visited.leaves.length = 1 ∧ visited.statements.length = 1 ∧
      ∀ ℓ ∈ visited.leaves, ℓ.running.agents.map Agent.statement = visited.statements := by
  refine ⟨rfl, rfl, (agents_follow_statements (reachable_visited.mono ?_)).1⟩
  exact fun _ _ => trivial

end Context

end EventContexts
