import EventContexts.Proofs.Moves
import EventContexts.Proofs.Removal
/-!
What outlasts each move of a controller, known of it together with what hangs under it, holds all
over a tree in every state: the failing steps included, and the subtrees that come and go with them.
-/

namespace EventContexts

open Act

/-- A mistake in keeping the books of a context, or an identifier from outside that it does not
know. -/
def Error.Internal : Error → Prop
  | .pathInUse .. | .partitionInUse _ | .controllerUnknown _ | .statementUnknown _ => True
  | _ => False

/-- What may be known of a node: of its controller and its children, above the levels below. -/
abbrev Outlook : Type := List Level → Controller → List (Key × Handle) → Prop

def Children.roll {below : List Level} (id : ControllerId) (children : Children below) :
    List (Key × Handle) :=
  children.table.entries.map fun e => (e.2.key, e.2.handle id e.1)

def Children.All (G : Outlook) :
    (below : List Level) → Children below → Prop
  | [], _ => True
  | _ :: below, branches =>
      let branches : Table (Branch (Children below)) := branches
      ∀ e ∈ branches.entries,
        G below e.2.node.controller (e.2.node.children.roll e.2.node.controller.id) ∧
          e.2.node.children.All G below

def Children.EachStep (S : Level → Key → Props → Prop) :
    {below : List Level} → Level → Children below → Prop
  | [], l, partitions =>
      let partitions : Table Running := partitions
      ∀ e ∈ partitions.entries, S l e.2.key e.2.properties
  | _ :: below, l, branches =>
      let branches : Table (Branch (Children below)) := branches
      ∀ e ∈ branches.entries, S l e.2.key e.2.properties ∧
        e.2.node.children.EachStep S e.2.node.controller.level

def Node.All (G : Outlook) (below : List Level)
    (node : Node (Children below)) : Prop :=
  G below node.controller (node.children.roll node.controller.id) ∧ node.children.All G below

section trees

variable {G G' : Outlook} {below : List Level}
  {children : Children below} {node : Node (Children below)} {id : ControllerId} {k : UInt32}

namespace Children

@[simp] theorem roll_empty : (Children.empty below).roll id = [] := by
  cases below <;> rfl

theorem nodup_roll : ((children.roll id).map Prod.snd).Nodup := by
  apply List.Nodup.of_map Handle.id
  have hkeys : ((children.roll id).map Prod.snd).map Handle.id = children.table.keys := by
    rw [roll, List.map_map, List.map_map]
    exact List.map_congr_left fun e _ => Child.id_handle
  rw [hkeys]
  exact children.table.nodup_keys

theorem places_roll : (children.roll id).map (fun e => e.2.id) = children.table.keys := by
  rw [roll, List.map_map]
  exact List.map_congr_left fun e _ => Child.id_handle

theorem roll_erase {a : Child below} (hmem : (k, a) ∈ children.table.entries) :
    (children.erase k).roll id = (children.roll id).filter fun e => e.2 ≠ a.handle id k := by
  rw [roll, roll, children.table_erase, List.filter_map]
  refine congrArg _ (List.filter_congr fun e he => ?_)
  obtain ⟨l, b⟩ := e
  refine decide_eq_decide.2 (not_congr ⟨?_, Child.handle_inj⟩)
  rintro rfl
  rw [Table.eq_of_mem he hmem]

theorem roll_stale {h : Handle} (hstale : ¬ ∃ e ∈ children.table.entries, h = e.2.handle id e.1) :
    (children.roll id).filter (fun e => e.2 ≠ h) = children.roll id := by
  refine List.filter_eq_self.2 fun p hp => ?_
  obtain ⟨e, he, rfl⟩ := List.mem_map.1 hp
  simpa using fun heq => hstale ⟨e, he, heq.symm⟩

theorem roll_insert {children' : Children below} {a a' : Child below}
    (hmem : (k, a) ∈ children.table.entries)
    (hinsert : children'.table = children.table.insert k a')
    (hkey : a'.key = a.key) (hhandle : a'.handle id k = a.handle id k) :
    children'.roll id = children.roll id := by
  obtain ⟨before, after, hsplit, -, hsame⟩ := Table.split_of_mem hmem
  rw [roll, roll, hinsert, hsame, hsplit, List.map_append, List.map_append, List.map_cons,
    List.map_cons, hkey, hhandle]

theorem roll_insert_new {children' : Children below} {a : Child below}
    (hinsert : children'.table = children.table.insert k a) (hnew : k ∉ children.table.keys) :
    (children'.roll id).Perm ((a.key, a.handle id k) :: children.roll id) := by
  rw [roll, hinsert]
  exact (Table.insert_perm_of_new hnew).map _

theorem All.mono (h : children.All G below) (hG : ∀ below c xs, G below c xs → G' below c xs) :
    children.All G' below := by
  induction below with
  | nil => trivial
  | cons l below ih => exact fun e he => ⟨hG _ _ _ (h e he).1, ih (h e he).2⟩

theorem All.and (h : children.All G below) (h' : children.All G' below) :
    children.All (fun below c xs => G below c xs ∧ G' below c xs) below := by
  induction below with
  | nil => trivial
  | cons l below ih =>
      exact fun e he => ⟨⟨(h e he).1, (h' e he).1⟩, ih (h e he).2 (h' e he).2⟩

theorem all_empty : (Children.empty below).All G below := by
  cases below with
  | nil => trivial
  | cons l below => exact fun e he => (List.not_mem_nil he).elim

theorem All.erase (h : children.All G below) : (children.erase k).All G below := by
  cases below with
  | nil => trivial
  | cons l below => exact fun e he => h e (Table.mem_erase.1 he).1

section branches

variable {l : Level} {branches : Table (Branch (Children below))} {branch : Branch (Children below)}

theorem All.insert (h : Children.All G (l :: below) branches) (hnode : branch.node.All G below) :
    Children.All G (l :: below) (branches.insert k branch) := by
  intro e he
  rcases Table.mem_insert.1 he with rfl | ⟨he, -⟩
  · exact hnode
  · exact h e he

theorem EachStep.insert_branch {S : Level → Key → Props → Prop} {m : Level}
    (h : @Children.EachStep S (m :: below) l branches)
    (hbranch : S l branch.key branch.properties)
    (hunder : branch.node.children.EachStep S branch.node.controller.level) :
    @Children.EachStep S (m :: below) l (branches.insert k branch) := by
  intro e he
  rcases Table.mem_insert.1 he with rfl | ⟨he, -⟩
  · exact ⟨hbranch, hunder⟩
  · exact h e he

end branches

section steps

variable {S : Level → Key → Props → Prop} {l : Level}

theorem eachStep_empty : (Children.empty below).EachStep S l := by
  cases below <;> exact fun e he => (List.not_mem_nil he).elim

theorem EachStep.erase (h : children.EachStep S l) : (children.erase k).EachStep S l := by
  cases below <;> exact fun e he => h e (Table.mem_erase.1 he).1

theorem EachStep.insert_partition {partitions : Table Running} {r : Running}
    (h : @Children.EachStep S [] l partitions) (hr : S l r.key r.properties) :
    @Children.EachStep S [] l (partitions.insert k r) := by
  intro e he
  rcases Table.mem_insert.1 he with rfl | ⟨he, -⟩
  · exact hr
  · exact h e he

end steps

end Children

theorem Node.eachStep_leaves {S : Level → Key → Props → Prop} {path : Path}
    (h : node.children.EachStep S node.controller.level)
    (hpath : ∀ step ∈ path, S step.level step.key step.properties) :
    ∀ ℓ ∈ node.leaves below path, ∀ step ∈ ℓ.path, S step.level step.key step.properties := by
  induction below generalizing path with
  | nil =>
      intro ℓ hℓ
      obtain ⟨e, he, rfl⟩ := List.mem_map.1 hℓ
      exact List.forall_mem_append.2 ⟨hpath, List.forall_mem_singleton.2 (h e he)⟩
  | cons m below ih =>
      intro ℓ hℓ
      obtain ⟨e, he, hℓ⟩ := List.mem_flatMap.1 hℓ
      obtain ⟨hS, hunder⟩ := h e he
      exact ih hunder (List.forall_mem_append.2 ⟨hpath, List.forall_mem_singleton.2 hS⟩) ℓ hℓ

theorem Node.all_iff {F : Controller → List (Key × Handle) → Prop} {parent : Option ControllerId}
    {place : UInt32} {depth : Nat} : node.All (fun _ => F) below ↔
      ∀ x ∈ node.entries below parent place depth, F x.controller x.handles := by
  induction below generalizing parent place depth with
  | nil =>
      simp only [All, entries, List.mem_singleton, forall_eq, controller_entry, handles_entry]
      exact and_iff_left trivial
  | cons l below ih =>
      have hunder : node.children.All (fun _ => F) (l :: below) ↔
          ∀ e ∈ (node.children : Table (Branch (Children below))).entries,
            ∀ x ∈ e.2.node.entries below (some node.controller.id) e.1 (depth + 1),
              F x.controller x.handles :=
        forall₂_congr fun e _ => ih
      simp only [All, hunder, mem_entries_cons, or_imp, forall_and, forall_eq, controller_entry,
        handles_entry]
      refine and_congr Iff.rfl ⟨?_, ?_⟩
      · rintro h x ⟨e, he, hx⟩
        exact h e he x hx
      · exact fun h e he x hx => h x ⟨e, he, hx⟩

end trees

/-- `N` of a controller and its children is there from the start and outlasts each move of the
controller, and a move fails only with `E`. -/
structure Regime (o : Occasion) (since : Nat) (L : Level → Prop) (E : Error → Prop)
    (N : Outlook) : Prop where
  fresh : ∀ {l : Level} {below : List Level} {id : ControllerId} {place : UInt32} {nesting : Nat},
    L l → since ≤ id.number → N below (Controller.create l id place nesting) []
  leaf : ∀ {c : Controller} {xs ys : List (Key × Handle)} {r : Request} {h : Handle},
    N [] c xs → c.scheme.Asks o r → N [] { c with scheme := c.scheme.started r.key h } ys
  branch : ∀ {l : Level} {below : List Level} {c : Controller} {xs ys : List (Key × Handle)}
    {r : Request} {child : ControllerId}, N (l :: below) c xs → c.scheme.Asks o r →
      r.path ∉ xs.map (fun e => e.2.id) →
      ys.Perm ((r.key, .branch c.id r.path child) :: xs) →
      N (l :: below) { c with scheme := c.scheme.started r.key (.branch c.id r.path child) } ys
  ended : ∀ {below : List Level} {c : Controller} {xs : List (Key × Handle)} {key : Key}
    {h : Handle}, N below c xs → c.scheme.Ending → (key, h) ∈ c.scheme.children.entries →
      (xs.map Prod.snd).Nodup →
      N below { c with scheme := c.scheme.ended key } (xs.filter fun e => e.2 ≠ h)
  notes : ∀ {below : List Level} {c : Controller} {xs : List (Key × Handle)} {s : Scheme},
    N below c xs → c.scheme.Notes o s → N below { c with scheme := s } xs
  plain : ∀ {below : List Level} {c : Controller} {xs : List (Key × Handle)}
    {t : TemporalController}, o.plain → N below c xs → c.scheme = .temporal t → t.recovered = none
  tells : ∀ {e : Error}, ¬ e.Internal → E e
  claimed : ¬ o.plain → ∀ p, E (.partitionInUse p)
  occupied : ∀ {l : Level} {below : List Level} {c : Controller} {xs : List (Key × Handle)}
    {r : Request}, N (l :: below) c xs → c.scheme.Asks o r →
      r.path ∈ xs.map (fun e => e.2.id) → E (.pathInUse c.id r.path)

def Wakes (since : Nat) (L : Level → Prop) (P : Controller → Prop) : Prop :=
  ∀ {σ : Type} (life : Lifecycle σ) (a : Activation) {l : Level} {id : ControllerId}
    (place : UInt32) (nesting : Nat) (s : σ), L l → since ≤ id.number →
    Ends (fun _ p => P p.1) (fun _ _ => True)
      (Controller.activate life a (Controller.create l id place nesting, s))

def Steady (N : Outlook) (P : Controller → Prop)
    (below : List Level) (c : Controller) (xs : List (Key × Handle)) : Prop :=
  N below c xs ∧ P c

structure Midway (N : Outlook) (P : Controller → Prop)
    (since : Nat) (owner : Controller) (below : List Level) (s : Scheme)
    (t : Children below × Books) : Prop where
  node : N below { owner with scheme := s } (t.1.roll owner.id)
  under : t.1.All (Steady N P) below
  since : since ≤ t.2.nextController

structure Throughout (G : Outlook) (id : ControllerId) (since : Nat) (below : List Level)
    (s : Node (Children below) × Books) : Prop where
  id : s.1.controller.id = id
  all : s.1.All G below
  since : since ≤ s.2.nextController

section steps

variable {N G G' : Outlook} {P Q : Controller → Prop} {since : Nat} {owner c : Controller}
  {below : List Level} {id : ControllerId} {b b' : Books}

theorem Midway.steady {t : Children below × Books} (h : Midway N P since owner below c.scheme t)
    (hc : c = { owner with scheme := c.scheme }) (hPQ : ∀ c, P c → Q c) (hQ : Q c) :
    (Node.mk c t.1).All (Steady N Q) below := by
  have hid : c.id = owner.id := by rw [hc]
  have hnode := h.node
  rw [← hc, ← hid] at hnode
  exact ⟨⟨hnode, hQ⟩, h.under.mono fun _ _ _ h => ⟨h.1, hPQ _ h.2⟩⟩

theorem Node.All.midway {node : Node (Children below)} (h : node.All (Steady N P) below)
    (hb : since ≤ b.nextController) :
    Midway N P since node.controller below node.controller.scheme (node.children, b) :=
  ⟨h.1.1, h.2, hb⟩

namespace Throughout

theorem mono {s : Node (Children below) × Books} (h : Throughout G id since below s)
    (hG : ∀ below c xs, G below c xs → G' below c xs) : Throughout G' id since below s :=
  ⟨h.id, ⟨hG _ _ _ h.all.1, h.all.2.mono hG⟩, h.since⟩

theorem withBranch {m : Level} {node : Node (Children (m :: below))} {n : Node (Children below)}
    {k : UInt32} {branch : Branch (Children below)}
    (hs : Throughout G id since (m :: below) (node, b))
    (hmem : (k, branch) ∈ (node.children : Table (Branch (Children below))).entries)
    (hG : ∀ below c xs, G below c xs → G' below c xs)
    (hn : Throughout G' branch.node.controller.id since below (n, b')) :
    Throughout G' id since (m :: below) (node.withBranch k branch n, b') := by
  let branch' : Branch (Children below) := { branch with node := n }
  let a : Child (m :: below) := branch
  let a' : Child (m :: below) := branch'
  have hhandle : a'.handle node.controller.id k = a.handle node.controller.id k :=
    congrArg (Handle.branch node.controller.id k) hn.id
  have hroll : (node.withBranch k branch n).children.roll node.controller.id =
      node.children.roll node.controller.id := Children.roll_insert hmem rfl rfl hhandle
  have hnode : G' (m :: below) node.controller
      ((node.withBranch k branch n).children.roll node.controller.id) :=
    hroll ▸ hG _ _ _ hs.all.1
  have hunder : node.children.All G' (m :: below) := hs.all.2.mono hG
  exact ⟨hs.id, ⟨hnode, hunder.insert hn.all⟩, hn.since⟩

theorem withPartition {node : Node (Children [])} {p : UInt32} {r : Running}
    (hs : Throughout G id since [] (node, b))
    (hmem : (p, r) ∈ (node.children : Table Running).entries) {agents : List Agent}
    (hb : b'.nextController = b.nextController) : Throughout G id since []
      ({ node with children := (node.children : Table Running).insert p { r with agents } },
        b') := by
  let r' : Running := { r with agents }
  let children : Children [] := (node.children : Table Running).insert p r'
  let a : Child [] := r
  have hroll : children.roll node.controller.id = node.children.roll node.controller.id :=
    Children.roll_insert (a := a) hmem (rfl : children.table = node.children.table.insert p r')
      rfl rfl
  have hnode : G [] node.controller (children.roll node.controller.id) := hroll ▸ hs.all.1
  exact ⟨hs.id, ⟨hnode, trivial⟩, hb ▸ hs.since⟩

end Throughout

end steps

theorem Runtime.failures_tell {runtime : Runtime} {statementLevel : Bool} {agents : List Agent}
    {trace : Trace} : ∀ e ∈ runtime.failures statementLevel trace agents, ¬ e.Internal := by
  induction agents generalizing trace with
  | nil => simp [failures]
  | cons a rest ih =>
      simp only [failures]
      split
      · exact ih
      · exact List.forall_mem_cons.2 ⟨id, ih⟩

theorem Books.Stops.tells {runtime : Runtime} {statementLevel : Bool} {agents : List Agent}
    {b : Books} {o : Except Error Unit × Books} {e : Error}
    (h : Books.Stops runtime statementLevel agents b o) (he : o.1 = .error e) : ¬ e.Internal := by
  have hfailures : ∀ e ∈ runtime.failures statementLevel b.trace agents, ¬ e.Internal :=
    Runtime.failures_tell
  rw [h.outcome] at he
  cases hfirst : runtime.failures statementLevel b.trace agents with
  | nil =>
      rw [hfirst] at he
      cases he
  | cons e' rest =>
      rw [hfirst] at he hfailures
      obtain rfl := Except.error.inj he
      exact hfailures _ (List.mem_cons_self ..)

namespace Setting

variable {env : Setting} {below : List Level} {path : Path} {owner : Controller} {r : Request}
  {o : Occasion} {since : Nat} {L : Level → Prop} {E : Error → Prop}
  {N G G' : Outlook} {P Q : Controller → Prop}
  {id : ControllerId} {children : Children below} {b : Books} {α : Type}

theorem startAgents_error {p : UInt32} {recovering : Bool} {ss : List Statement}
    {started : List Agent} : Ends (fun _ _ => True) (fun e _ => ¬ e.Internal)
      (env.startAgents path p recovering ss started b) := by
  induction ss generalizing started b with
  | nil => trivial
  | cons s rest ih =>
      simp only [startAgents, startAgent]
      cases env.runtime.start b.trace (env.startRequest path p recovering s) with
      | ok stopFailure => exact ih
      | error reason => exact id

theorem claim_error {assigned : Option UInt32} : Ends (fun _ _ => True)
    (fun e _ => e.Internal → ∃ p, assigned = some p ∧ e = .partitionInUse p)
      (env.claim assigned b) := by
  rw [claim.eq_def]
  split
  · next p =>
      split
      · trivial
      · exact fun _ => ⟨p, rfl, rfl⟩
  · split
    · trivial
    · exact False.elim

theorem startPartition_moves {partitions : Table Running} :
    Ends (fun h s => (∃ p g, h = .leaf owner.id p g) ∧ b.nextController ≤ s.2.nextController)
      (fun e s => (e.Internal → ∃ p, r.assigned = some p ∧ e = .partitionInUse p) ∧
        b.nextController ≤ s.2.nextController)
      (env.startPartition owner path r (partitions, b)) := by
  have hissued : Issued (b, fun _ => True) [] owner.post
      (env.startPartition owner path r (partitions, b)).2 :=
    (startPartition_issued _ ⟨.refl b, fun _ _ => .inl trivial⟩).state
  refine (Ends.and ?_ (ends_of_state (P := fun s => b.nextController ≤ s.2.nextController)
    hissued.advances.controllers)).imp (fun _ _ h => h) fun _ _ h => h
  simp only [startPartition]
  split
  · exact False.elim
  · have hclaim : Ends _ _ (env.claim r.assigned b) := claim_error
    split
    · next e b' heq => exact hclaim.congr heq
    · next p b' heq =>
        have hstart : Ends _ _ (env.startAgents
          (path ++ [⟨owner.level, r.key, capture r⟩]) p r.recovered.isSome env.statements [] b') :=
            startAgents_error
        split
        · next e b'' heq' => exact fun h => absurd h (hstart.congr heq')
        · next agents b'' heq' => exact ⟨p, _, rfl⟩

structure Shed (owner : ControllerId) (h : Handle) (children : Children below) (b : Books)
    (s : Children below × Books) : Prop where
  roll : s.1.roll owner = (children.roll owner).filter fun e => e.2 ≠ h
  under : ∀ G, children.All G below → s.1.All G below
  books : s.2.nextController = b.nextController

theorem endChild_moves {termination : Option Props} {h : Handle} (owner : Controller) :
    Ends (fun _ => Shed owner.id h children b)
      (fun e s => ¬ e.Internal ∧ Shed owner.id h children b s)
      (env.endChild termination below owner.id h (children, b)) := by
  by_cases hlive : ∃ e ∈ children.table.entries, h = e.2.handle owner.id e.1
  · obtain ⟨⟨k, a⟩, hmem, rfl⟩ := hlive
    have hstops : Books.Stops env.runtime false ((Child.leaves owner [] (k, a)).flatMap fun ℓ =>
        ℓ.running.agents.map fun a => a.withTermination termination) b
        (env.closeChild termination (k, a) b) := env.closeChild_stops owner []
    have hshed : Shed owner.id (a.handle owner.id k) children b
        (children.erase k, (env.closeChild termination (k, a) b).2) :=
      ⟨Children.roll_erase hmem, fun _ h => h.erase, hstops.controllers⟩
    rw [endChild_live hmem]
    cases hout : (env.closeChild termination (k, a) b).1 with
    | ok u => exact hshed
    | error e => exact ⟨hstops.tells hout, hshed⟩
  · rw [endChild_stale hlive]
    exact ⟨(Children.roll_stale hlive).symm, fun _ h => h, rfl⟩

section moves

variable {s : Scheme} {key : Key} {h : Handle} {m : Level} (hN : Regime o since L E N)

include hN

theorem endChild_midway (hending : s.Ending) (hmem : (key, h) ∈ s.children.entries) :
    Triple (Midway N P since owner below s) (env.endChild none below owner.id h)
      (fun _ => Midway N P since owner below (s.ended key))
      fun e t => E e ∧ Midway N P since owner below (s.ended key) t := by
  rintro ⟨children, b⟩ hs
  have hshed (t : Children below × Books) (ht : Shed owner.id h children b t) :
      Midway N P since owner below (s.ended key) t := by
    refine ⟨?_, ht.under _ hs.under, ht.books ▸ hs.since⟩
    rw [ht.roll]
    exact hN.ended hs.node hending hmem Children.nodup_roll
  exact (endChild_moves owner).imp (fun _ => hshed) fun e t ht => ⟨hN.tells ht.1, hshed t ht.2⟩

theorem startPartition_midway (hr : s.Asks o r) :
    Triple (Midway N P since owner [] s) (env.startPartition owner path r)
      (fun h => Midway N P since owner [] (s.started r.key h))
      fun e t => E e ∧ Midway N P since owner [] s t := by
  rintro ⟨partitions, b⟩ hs
  refine (startPartition_moves.and startPartition_error).imp ?_ ?_
  · rintro h t ⟨⟨-, hb⟩, -⟩
    exact ⟨hN.leaf hs.node hr, trivial, Nat.le_trans hs.since hb⟩
  · rintro e ⟨_, b'⟩ ⟨⟨he, hb⟩, rfl⟩
    refine ⟨?_, hs.node, trivial, Nat.le_trans hs.since hb⟩
    by_cases hinternal : e.Internal
    · obtain ⟨p, hassigned, rfl⟩ := he hinternal
      refine hN.claimed (fun hplain => ?_) p
      rw [hr.assigned hplain] at hassigned
      cases hassigned
    · exact hN.tells hinternal

theorem activate_fresh (hP : Wakes since L P) (hm : L m) (hid : since ≤ id.number)
    (hb : since ≤ b.nextController) {a : Activation} (ha : a.Fits o) {place : UInt32}
    {nesting : Nat} {life : Lifecycle (Children below × Books)}
    (hlife : life.Bears o (Midway N P since (Controller.create m id place nesting) below) E) :
    Ends
      (fun _ p => p.1.id = id ∧ (Node.mk p.1 p.2.1).All (Steady N P) below ∧
        since ≤ p.2.2.nextController)
      (fun e p => E e ∧ since ≤ p.2.2.nextController)
      (Controller.activate life a
        (Controller.create m id place nesting, (Children.empty below, b))) := by
  let fresh := Controller.create m id place nesting
  let start : Children below × Books := (Children.empty below, b)
  have hready : Midway N P since fresh below (.ofLevel m) start := by
    refine ⟨?_, Children.all_empty, hb⟩
    rw [Children.roll_empty]
    exact hN.fresh hm hid
  have hgrown : Ends (fun _ => fresh.Bearing (Midway N P since fresh below))
      (fun e p => E e ∧ fresh.Bearing (Midway N P since fresh below) p)
      (Controller.activate life a (fresh, start)) :=
    Controller.bears_run (Scheme.bears_activate hlife ha m (.ofLevel m, start) ⟨rfl, hready⟩)
  refine (hgrown.and (hP life a place nesting start hm hid)).imp ?_ ?_
  · rintro _ ⟨controller, t⟩ ⟨⟨hcontroller, hdone⟩, hwoken⟩
    exact ⟨congrArg Controller.id hcontroller, hdone.steady hcontroller (fun _ h => h) hwoken,
      hdone.since⟩
  · exact fun e p hp => ⟨hp.1.1, hp.1.2.2.since⟩

theorem startBranch_midway (hP : Wakes since L P) (hm : L m)
    (hlife : ∀ {path : Path} {owner : Controller},
      (env.lifecycle below path owner).Bears o (Midway N P since owner below) E)
    (hr : s.Asks o r) : Triple (Midway N P since owner (m :: below) s)
      ((env.lifecycle (m :: below) path owner).start r)
      (fun h => Midway N P since owner (m :: below) (s.started r.key h))
      fun e t => E e ∧ Midway N P since owner (m :: below) s t := by
  rintro ⟨children, b⟩ hs
  let branches : Table (Branch (Children below)) := children
  simp only [lifecycle, startChild]
  split
  · next hc =>
      have hused : r.path ∈ (children.roll owner.id).map fun e => e.2.id :=
        Children.places_roll ▸ Table.contains_iff.1 hc
      exact ⟨hN.occupied (c := { owner with scheme := s }) hs.node hr hused, hs.node, hs.under,
        Nat.le_succ_of_le hs.since⟩
  · next hc =>
      have hnew : r.path ∉ branches.keys := fun hmem => hc (Table.contains_iff.2 hmem)
      let fresh := Controller.create m ⟨b.nextController⟩ r.path (owner.nesting + 1)
      let life := env.lifecycle below (path ++ [⟨owner.level, r.key, r.properties⟩]) fresh
      let start : Books := { b with nextController := b.nextController + 1 }
      have hunder : life.Bears o (Midway N P since fresh below) E := hlife
      have hgrown : Ends _ _ (Controller.activate life (env.activation r)
          (fresh, (Children.empty below, start))) :=
        activate_fresh hN hP hm hs.since (Nat.le_succ_of_le hs.since) ⟨hr.trigger, hr.recovered⟩
          hunder
      split
      · next controller grown b' heq =>
          obtain ⟨hid, hall, hsince⟩ := hgrown.congr heq
          let branch : Branch (Children below) := ⟨r.key, r.properties, ⟨controller, grown⟩⟩
          let grownBranches : Children (m :: below) := branches.insert r.path branch
          let a : Child (m :: below) := branch
          have hroll : (grownBranches.roll owner.id).Perm
              ((r.key, a.handle owner.id r.path) :: children.roll owner.id) :=
            Children.roll_insert_new (a := a) rfl hnew
          have hhandle : a.handle owner.id r.path = .branch owner.id r.path ⟨b.nextController⟩ :=
            congrArg (Handle.branch owner.id r.path) hid
          have hplaces : r.path ∉ (children.roll owner.id).map fun e => e.2.id :=
            Children.places_roll ▸ hnew
          rw [hhandle] at hroll
          exact ⟨hN.branch hs.node hr hplaces hroll, hs.under.insert hall, hsince⟩
      · next e controller grown b' heq =>
          obtain ⟨he, hsince⟩ := hgrown.congr heq
          have hclosed : b'.Advances (env.closeAll none false below ⟨controller, grown⟩ b').2 :=
            Books.Advances.closeAll (.refl b')
          exact ⟨he, hs.node, hs.under, Nat.le_trans hsince hclosed.controllers⟩

theorem lifecycle_bears (hP : Wakes since L P) (hl : ∀ l ∈ below, L l) :
    (env.lifecycle below path owner).Bears o (Midway N P since owner below) E := by
  have hnotes {below : List Level} {owner : Controller} {s s' : Scheme}
      {t : Children below × Books} (hs : s.Notes o s') (ht : Midway N P since owner below s t) :
      Midway N P since owner below s' t :=
    ⟨hN.notes (c := { owner with scheme := s }) ht.node hs, ht.under, ht.since⟩
  have hplain {below : List Level} {owner : Controller} {c : TemporalController}
      {t : Children below × Books} (ho : o.plain)
      (ht : Midway N P since owner below (.temporal c) t) : c.recovered = none :=
    hN.plain ho ht.node rfl
  induction below generalizing path owner with
  | nil =>
      exact ⟨startPartition_midway hN, endChild_midway hN, hnotes, hplain, fun _ => hN.tells id⟩
  | cons m below ih =>
      have hunder {path : Path} {owner : Controller} :
          (env.lifecycle below path owner).Bears o (Midway N P since owner below) E :=
        ih fun l hmem => hl l (List.mem_cons_of_mem _ hmem)
      exact ⟨startBranch_midway hN hP (hl m (List.mem_cons_self ..)) hunder, endChild_midway hN,
        hnotes, hplain, fun _ => hN.tells id⟩

end moves

theorem drive_steady (hN : Regime o since L E N) (hP : Wakes since L P) (hPQ : ∀ c, P c → Q c)
    (hl : ∀ l ∈ below, L l) {node : Node (Children below)}
    {x : Lifecycle (Children below × Books) → Act (Controller × (Children below × Books)) α}
    (hx : ∀ life : Lifecycle (Children below × Books),
      life.Bears o (Midway N P since node.controller below) E →
        Ends (fun _ => node.controller.Bearing (Midway N P since node.controller below))
          (fun e p => E e ∧ node.controller.Bearing (Midway N P since node.controller below) p)
          (x life (node.controller, (node.children, b))))
    (hserved : Ends (fun _ p => P p.1) (fun _ p => Q p.1)
      (x (env.lifecycle below path node.controller) (node.controller, (node.children, b)))) :
    Ends (fun _ => Throughout (Steady N P) node.controller.id since below)
      (fun e s => E e ∧ Throughout (Steady N Q) node.controller.id since below s)
      (env.drive below path x (node, b)) := by
  have hid {c : Controller} (hc : c = { node.controller with scheme := c.scheme }) :
      c.id = node.controller.id := by rw [hc]
  refine drive_ends (((hx _ (lifecycle_bears hN hP hl)).and hserved).imp ?_ ?_)
  · rintro _ ⟨c, t⟩ ⟨⟨hc, hdone⟩, hPc⟩
    exact ⟨hid hc, hdone.steady hc (fun _ h => h) hPc, hdone.since⟩
  · rintro e ⟨c, t⟩ ⟨⟨he, hc, hdone⟩, hQc⟩
    exact ⟨he, hid hc, hdone.steady hc hPQ hQc, hdone.since⟩

theorem offer_steady (hN : Regime o since L E N) (hP : Wakes since L P) (hPQ : ∀ c, P c → Q c)
    {e : Event} (he : o.event = some e)
    (hroute : ∀ {σ : Type} (life : Lifecycle σ), Triple (fun p => P p.1) (Controller.route life e)
      (fun _ p => P p.1) fun _ p => Q p.1)
    (hl : ∀ l ∈ below, L l) :
    Triple (Throughout (Steady N P) id since below) (env.offer e below path)
      (fun _ => Throughout (Steady N P) id since below)
      fun e s => E e ∧ Throughout (Steady N Q) id since below s := by
  have hdrive {below : List Level} {path : Path} {id : ControllerId} (hl : ∀ l ∈ below, L l) :
      Triple (Throughout (Steady N P) id since below)
        (env.drive below path fun life => Controller.route life e)
        (fun _ => Throughout (Steady N P) id since below)
        fun e s => E e ∧ Throughout (Steady N Q) id since below s := by
    rintro ⟨node, b⟩ ⟨rfl, hall, hb⟩
    exact drive_steady hN hP hPQ hl (fun life hlife => Controller.bears_run
      (Scheme.bears_route hlife he _ (hall.midway hb))) (hroute _ _ hall.1.2)
  induction below generalizing path id with
  | nil =>
      refine (hdrive hl).bind fun _ => triple_forEach fun handle _ => ?_
      rintro ⟨node, b⟩ hs
      by_cases hlive : ∃ c ∈ node.children.table.entries, handle = c.2.handle node.controller.id c.1
      · obtain ⟨⟨p, r⟩, hmem, hh⟩ := hlive
        rw [offerPartition_live hmem hh]
        exact hs.withPartition hmem Books.notes_offerAll.controllers
      · rw [offerPartition_stale hlive]
        exact hs
  | cons m below ih =>
      refine (hdrive hl).bind fun _ => triple_forEach fun handle _ => ?_
      rintro ⟨node, b⟩ hs
      by_cases hlive : ∃ c ∈ node.children.table.entries, handle = c.2.handle node.controller.id c.1
      · obtain ⟨⟨k, branch⟩, hmem, hh⟩ := hlive
        have hbranch : Throughout (Steady N P) branch.node.controller.id since below
            (branch.node, b) :=
          ⟨rfl, hs.all.2 (k, branch) hmem, hs.since⟩
        refine inBranch_ends hmem hh ((ih (fun l hm => hl l (List.mem_cons_of_mem _ hm)) _
          hbranch).imp ?_ ?_)
        · exact fun _ p hp => hs.withBranch hmem (fun _ _ _ h => h) hp
        · exact fun _ p hp => ⟨hp.1, hs.withBranch hmem (fun _ _ _ h => ⟨h.1, hPQ _ h.2⟩) hp.2⟩
      · rw [inBranch_stale hlive]
        exact hs
theorem endAt_throughout {h : Handle} {termination : Option Props}
    (hG : ∀ below c xs, G below c xs → G' below c xs)
    (hforget : ∀ below c xs, G below c xs → h ∈ xs.map Prod.snd → (xs.map Prod.snd).Nodup →
      G' below (c.forget h) (xs.filter fun e => e.2 ≠ h)) :
    Triple (Throughout G id since below) (env.endAt h termination below)
      (fun _ => Throughout G' id since below)
      fun e s => ¬ e.Internal ∧ Throughout G' id since below s := by
  rintro ⟨node, b⟩ hs
  by_cases hlive : ∃ e ∈ node.children.table.entries, h = e.2.handle node.controller.id e.1
  · have hmem : h ∈ (node.children.roll node.controller.id).map Prod.snd := by
      obtain ⟨e, he, rfl⟩ := hlive
      exact List.mem_map_of_mem (f := Prod.snd)
        (List.mem_map_of_mem (f := fun e => (e.2.key, e.2.handle node.controller.id e.1)) he)
    have hholds : holds below node.children node.controller.id h = true :=
      Children.holds_iff.2 hlive
    have hend : Ends _ _ (env.endChild termination below node.controller.id h (node.children, b)) :=
      endChild_moves node.controller
    have hshed {children : Children below} {b' : Books}
        (ht : Shed node.controller.id h node.children b (children, b')) :
        Throughout G' id since below (⟨node.controller.forget h, children⟩, b') := by
      have hroll : children.roll node.controller.id =
          (node.children.roll node.controller.id).filter fun e => e.2 ≠ h := ht.roll
      have hnode := hforget _ _ _ hs.all.1 hmem Children.nodup_roll
      rw [← hroll] at hnode
      exact ⟨hs.id, ⟨hnode, (ht.under G hs.all.2).mono hG⟩, ht.books ▸ hs.since⟩
    rcases hx : env.endChild termination below node.controller.id h (node.children, b)
      with ⟨out, children, b'⟩
    have heq : env.endAt h termination below (node, b) =
        (out, (⟨node.controller.forget h, children⟩, b')) := by
      simp only [endAt, hholds, if_true, hx]
    rw [hx] at hend
    rw [heq]
    cases out with
    | ok u => exact hshed hend
    | error e => exact ⟨hend.1, hshed hend.2⟩
  · rw [endAt_stale hlive]
    exact hs.mono hG

theorem atController_throughout {target : ControllerId} {T : Outlook}
    {f : (below : List Level) → Path → Act (Node (Children below) × Books) α}
    (hG : ∀ below c xs, G below c xs → G' below c xs)
    (hT : ∀ below c xs, G below c xs → T below c xs) (hl : ∀ l ∈ below, L l)
    (hf : ∀ {below path}, (∀ l ∈ below, L l) →
      Triple (Throughout G target since below) (f below path)
        (fun _ => Throughout G' target since below)
        fun e s => E e ∧ Throughout T target since below s)
    {node : Node (Children below)} (hs : Throughout G id since below (node, b))
    {o : Except Error α × (Node (Children below) × Books)}
    (ho : Node.atController target f below path (node, b) = some o) :
    Ends (fun _ => Throughout G' id since below) (fun e s => E e ∧ Throughout T id since below s)
      o := by
  induction below generalizing path id with
  | nil =>
      rw [Node.atController] at ho
      split at ho
      · next hid =>
          obtain rfl := Option.some.inj ho
          obtain rfl : target = id := hid.symm.trans hs.id
          exact hf hl _ hs
      · cases ho
  | cons m below ih =>
      rw [Node.atController] at ho
      split at ho
      · next hid =>
          obtain rfl := Option.some.inj ho
          obtain rfl : target = id := hid.symm.trans hs.id
          exact hf hl _ hs
      · obtain ⟨⟨k, branch⟩, hmem, hvisit⟩ := List.exists_of_findSome?_eq_some ho
        obtain ⟨⟨r, n, b'⟩, hn, rfl⟩ := Option.map_eq_some_iff.1 hvisit
        have hcontains : (node.children : Table (Branch (Children below))).contains k = true :=
          Table.contains_iff.2 (List.mem_map_of_mem hmem)
        have hbranch : Throughout G branch.node.controller.id since below (branch.node, b) :=
          ⟨rfl, hs.all.2 (k, branch) hmem, hs.since⟩
        have hvisited : Ends
            (fun _ p => Throughout G' id since (m :: below) (node.withBranch k branch p.1, p.2))
            (fun e p => E e ∧
              Throughout T id since (m :: below) (node.withBranch k branch p.1, p.2))
            (r, (n, b')) :=
          (ih (fun l hm => hl l (List.mem_cons_of_mem _ hm)) hbranch hn).imp
            (fun _ p hp => hs.withBranch hmem hG hp)
            fun _ p hp => ⟨hp.1, hs.withBranch hmem hT hp.2⟩
        simp only [Table.replace, hcontains]
        cases r <;> exact hvisited

end Setting

structure Node.Kin {below : List Level} (node n : Node (Children below)) : Prop where
  controller : n.controller = node.controller
  roll : n.children.roll node.controller.id = node.children.roll node.controller.id
  under : ∀ G, node.children.All G below → n.children.All G below
  each : ∀ S l, node.children.EachStep S l → n.children.EachStep S l

theorem Node.Kin.all {G : Outlook} {below : List Level} {node n : Node (Children below)}
    (h : node.Kin n) (hall : node.All G below) : n.All G below := by
  refine ⟨?_, h.under G hall.2⟩
  rw [h.controller, h.roll]
  exact hall.1

theorem Node.traverseLeaves_kin {ω ε : Type} {f : Leaf → ω → Except ε Running × ω} {W : ω → Prop}
    {T : ε → Prop} (hf : ∀ ℓ w, W w →
      Ends (fun r w => (∃ agents, r = { ℓ.running with agents }) ∧ W w) (fun e _ => T e) (f ℓ w))
    {below : List Level} (node : Node (Children below)) (path : Path) {w : ω} (hw : W w) :
    Ends (fun n w => node.Kin n ∧ W w) (fun e _ => T e) (node.traverseLeaves f below path w) := by
  induction below generalizing path w with
  | nil =>
      let t : Table Running := node.children
      let visit (p : UInt32) (r : Running) : ω → Except ε Running × ω :=
        f ⟨path ++ [node.step r.key r.properties], node.controller.id, p, r⟩
      let C (e : UInt32 × Running) (r : Running) : Prop :=
        e ∈ t.entries ∧ ∃ agents, r = { e.2 with agents }
      have hvisit : ∀ e ∈ t.entries, ∀ w, W w →
          Ends (fun r w => C e r ∧ W w) (fun e _ => T e) (visit e.1 e.2 w) := fun e he w hw =>
        (hf _ w hw).imp (fun _ _ hr => ⟨⟨he, hr.1⟩, hr.2⟩) fun _ _ h => h
      have hdone := Table.traverse_ends hvisit hw
      simp only [traverseLeaves]
      split
      · next t' w' heq =>
          obtain ⟨ht, hw'⟩ := hdone.congr heq
          refine ⟨⟨rfl, ?_, fun _ _ => trivial, fun S l heach => ?_⟩, hw'⟩
          · refine (List.Forall₂.map_eq (ht.imp ?_)).symm
            rintro ⟨k, r⟩ ⟨_, _⟩ ⟨rfl, -, agents, rfl⟩
            rfl
          · refine List.Forall₂.forall_right (ht.imp ?_)
            rintro e ⟨_, _⟩ ⟨-, he, agents, rfl⟩
            exact heach e he
      · next e w' heq => exact hdone.congr heq
  | cons m below ih =>
      let t : Table (Branch (Children below)) := node.children
      let visit (_ : UInt32) (b : Branch (Children below)) :
          ω → Except ε (Branch (Children below)) × ω :=
        b.visit (traverseLeaves f below (path ++ [node.step b.key b.properties]))
      let C (e : UInt32 × Branch (Children below)) (b : Branch (Children below)) : Prop :=
        e ∈ t.entries ∧ b.key = e.2.key ∧ b.properties = e.2.properties ∧ e.2.node.Kin b.node
      have hvisit : ∀ e ∈ t.entries, ∀ w, W w →
          Ends (fun b w => C e b ∧ W w) (fun e _ => T e) (visit e.1 e.2 w) := fun e he w hw =>
        Branch.visit_ends ((ih e.2.node _ hw).imp (fun n _ hn => ⟨⟨he, rfl, rfl, hn.1⟩, hn.2⟩)
          fun _ _ h => h)
      have hdone := Table.traverse_ends hvisit hw
      simp only [traverseLeaves]
      split
      · next t' w' heq =>
          obtain ⟨ht, hw'⟩ := hdone.congr heq
          refine ⟨⟨rfl, ?_, fun G hall => ?_, fun S l heach => ?_⟩, hw'⟩
          · refine (List.Forall₂.map_eq (ht.imp ?_)).symm
            rintro ⟨k, b⟩ ⟨_, b'⟩ ⟨rfl, -, hkey, -, hkin⟩
            have hid : b'.node.controller.id = b.node.controller.id :=
              congrArg Controller.id hkin.controller
            exact Prod.ext hkey.symm (congrArg (Handle.branch node.controller.id k) hid.symm)
          · refine List.Forall₂.forall_right (ht.imp ?_)
            rintro e e' ⟨-, he, -, -, hkin⟩
            exact hkin.all (hall e he)
          · refine List.Forall₂.forall_right (ht.imp ?_)
            rintro e ⟨_, b⟩ ⟨-, he, hkey, hproperties, hkin⟩
            obtain ⟨hshown, hunder⟩ := heach e he
            rw [hkey, hproperties, hkin.controller]
            exact ⟨hshown, hkin.each S _ hunder⟩
      · next e w' heq => exact hdone.congr heq

namespace Setting

variable {env : Setting} {below : List Level} {root : Node (Children below)} {b : Books}

theorem startEverywhere_kin {s : Statement} :
    Ends (fun root' _ => root.Kin root') (fun e _ => ¬ e.Internal)
      (env.startEverywhere s below root b) := by
  have hvisit : ∀ ℓ w, True → Ends
      (fun r _ => (∃ agents, r = { ℓ.running with agents }) ∧ True)
      (fun e _ => ¬ e.Internal) (env.startIn s ℓ w) := by
    rintro ℓ ⟨started, b'⟩ -
    simp only [startIn, startAgent]
    cases env.runtime.start b'.trace (env.startRequest ℓ.path ℓ.partition false s) with
    | ok stopFailure => exact ⟨⟨_, rfl⟩, trivial⟩
    | error reason => exact id
  have hdone : Ends (fun n _ => root.Kin n ∧ True) (fun e _ => ¬ e.Internal)
      (root.traverseLeaves (env.startIn s) below [] ([], b)) :=
    root.traverseLeaves_kin hvisit [] trivial
  simp only [startEverywhere]
  split
  · next root' started b' heq => exact (hdone.congr heq).1
  · next e started b' heq =>
      have he : ¬ e.Internal := hdone.congr heq
      exact he

theorem stopEverywhere_kin (env : Setting) (id : StatementId) (root : Node (Children below))
    (b : Books) : root.Kin (env.stopEverywhere id below root b).2.1 ∧
      ∀ e, (env.stopEverywhere id below root b).1 = .error e → ¬ e.Internal := by
  let W (w : Except Error Unit × Books) : Prop := ∀ e, w.1 = .error e → ¬ e.Internal
  have hvisit : ∀ ℓ w, W w → Ends (fun r w => (∃ agents, r = { ℓ.running with agents }) ∧ W w)
      (fun (_ : Empty) _ => True) (env.stopIn id ℓ w) := by
    rintro ℓ ⟨outcome, b'⟩ hw
    refine ⟨⟨_, rfl⟩, ?_⟩
    cases outcome with
    | error e => exact hw
    | ok u =>
        intro e he
        exact (Books.Stops.stopAgents env none _ b').tells he
  have hready : W (.ok (), b) := by
    rintro e ⟨⟩
  have hdone := root.traverseLeaves_kin hvisit [] hready
  simp only [stopEverywhere]
  split
  · next root' outcome b' heq => exact hdone.congr heq
  · next e _ _ => exact e.elim

end Setting

end EventContexts
