import EventContexts.Context.Statements
import EventContexts.Proofs.Likeness
import EventContexts.Proofs.Startup
import EventContexts.Proofs.Tables
import EventContexts.Proofs.Walks

namespace EventContexts

open Act

/-- No stop of an instance that starts so will fail. -/
def Runtime.Stops (runtime : Runtime) (request : StartRequest) (failure : Option String) : Prop :=
  ∀ trace (a : Agent) statementLevel, a.request = request → a.stopFailure = failure →
    runtime.stop trace a statementLevel = .ok ()

def Runtime.Unfailing (runtime : Runtime) : Prop :=
  ∀ trace request, ∃ failure, runtime.start trace request = .ok failure ∧
    runtime.Stops request failure

theorem Runtime.unfailing_collecting : Runtime.collecting.Unfailing := by
  refine fun _ request => ⟨none, rfl, fun _ a _ _ hfailure => ?_⟩
  simp only [Runtime.collecting, Agent.stop, hfailure]

namespace Agent

variable {a : Agent} {e : Event} {runtime : Runtime}

def Tame (runtime : Runtime) (a : Agent) : Prop := runtime.Stops a.request a.stopFailure

def plain (a : Agent) : Agent := { a with stopFailure := none }

theorem plain_evaluate : (a.evaluate e).plain = a.plain.evaluate e := by
  have haccepts : a.plain.accepts e = a.accepts e := rfl
  rw [evaluate, evaluate, haccepts]
  split <;> rfl

theorem map_plain_evaluate (agents : List Agent) :
    (agents.map fun a => a.evaluate e).map plain =
      (agents.map plain).map fun a => a.evaluate e := by
  simp only [List.map_map, Function.comp_def, plain_evaluate]

theorem Tame.evaluate (h : a.Tame runtime) (e : Event) : (a.evaluate e).Tame runtime := by
  rw [Agent.evaluate]
  split
  · exact h
  · exact h

end Agent

structure Books.Twins (b b' : Books) : Prop where
  ids : b.ids = b'.ids
  controllers : b.nextController = b'.nextController
  generations : b.nextGeneration = b'.nextGeneration

namespace Books.Twins

variable {b b' c c' : Books}

theorem notes (h : b.Twins b') (hb : b.Notes c) (hb' : b'.Notes c') : c.Twins c' where
  ids := hb.ids.trans (h.ids.trans hb'.ids.symm)
  controllers := hb.controllers.trans (h.controllers.trans hb'.controllers.symm)
  generations := hb.generations.trans (h.generations.trans hb'.generations.symm)

theorem count (h : b.Twins b') (f f' : Metrics → Metrics) : (b.count f).Twins (b'.count f') :=
  ⟨h.ids, h.controllers, h.generations⟩

theorem release (h : b.Twins b') (p : UInt32) : (b.release p).Twins (b'.release p) :=
  ⟨congrArg (fun ids => (PartitionIds.remove ids p).2) h.ids, h.controllers, h.generations⟩

end Books.Twins

namespace Running

variable {keep : StatementId → Bool} {runtime : Runtime} {r r' : Running}

def share (keep : StatementId → Bool) (r : Running) : Running :=
  { r with agents := (r.agents.map Agent.plain).filter fun a => keep a.statement.id }

/-- The same to some of the statements, and no stop will fail. -/
structure Twins (keep : StatementId → Bool) (runtime : Runtime) (r r' : Running) : Prop where
  share : r.share keep = r'.share keep
  tame : ∀ a ∈ r.agents, a.Tame runtime
  tame' : ∀ a ∈ r'.agents, a.Tame runtime

theorem Twins.evaluate (h : r.Twins keep runtime r') (e : Event) :
    ({ r with agents := r.agents.map fun a => a.evaluate e } : Running).Twins keep runtime
      { r' with agents := r'.agents.map fun a => a.evaluate e } := by
  have hshare (r : Running) :
      ({ r with agents := r.agents.map fun a => a.evaluate e } : Running).share keep =
        { r.share keep with agents := (r.share keep).agents.map fun a => a.evaluate e } := by
    simp only [Running.share, List.map_map, List.filter_map, Function.comp_def,
      Agent.plain_evaluate, Agent.statement_evaluate]
  refine ⟨?_, ?_, ?_⟩
  · rw [hshare, hshare, h.share]
  · exact List.forall_mem_map.2 fun a ha => (h.tame a ha).evaluate e
  · exact List.forall_mem_map.2 fun a ha => (h.tame' a ha).evaluate e

theorem share_append (a : Agent) :
    ({ r with agents := r.agents ++ [a] } : Running).share keep =
      { r.share keep with
        agents := (r.share keep).agents ++ [a.plain].filter fun a => keep a.statement.id } := by
  simp only [share, List.map_append, List.filter_append, List.map_cons, List.map_nil]

theorem share_without (id : StatementId) :
    ({ r with agents := r.agents.filter fun a => !a.runs id } : Running).share keep =
      { r.share keep with agents := (r.share keep).agents.filter fun a => !a.runs id } := by
  have hruns (a : Agent) : a.plain.runs id = a.runs id := rfl
  simp only [share, List.filter_map, List.filter_filter, Function.comp_def, hruns, Bool.and_comm]

theorem Twins.append (h : r.Twins keep runtime r') {a a' : Agent} (hplain : a.plain = a'.plain)
    (ha : a.Tame runtime) (ha' : a'.Tame runtime) :
    ({ r with agents := r.agents ++ [a] } : Running).Twins keep runtime
      { r' with agents := r'.agents ++ [a'] } := by
  refine ⟨?_, ?_, ?_⟩
  · rw [share_append, share_append, h.share, hplain]
  · exact List.forall_mem_append.2 ⟨h.tame, List.forall_mem_singleton.2 ha⟩
  · exact List.forall_mem_append.2 ⟨h.tame', List.forall_mem_singleton.2 ha'⟩

theorem Twins.without (h : r.Twins keep runtime r') (id : StatementId) :
    ({ r with agents := r.agents.filter fun a => !a.runs id } : Running).Twins keep runtime
      { r' with agents := r'.agents.filter fun a => !a.runs id } := by
  refine ⟨?_, fun a ha => h.tame a (List.mem_filter.1 ha).1,
    fun a ha => h.tame' a (List.mem_filter.1 ha).1⟩
  rw [share_without, share_without, h.share]

theorem Twins.append_other (h : r.Twins keep runtime r') {a : Agent}
    (hother : keep a.statement.id = false) (ha : a.Tame runtime) :
    r.Twins keep runtime { r' with agents := r'.agents ++ [a] } := by
  refine ⟨?_, h.tame, List.forall_mem_append.2 ⟨h.tame', List.forall_mem_singleton.2 ha⟩⟩
  have hnone : [a.plain].filter (fun a => keep a.statement.id) = [] := by
    refine List.filter_eq_nil_iff.2 fun x hx => ?_
    obtain rfl := List.mem_singleton.1 hx
    exact Bool.eq_false_iff.1 hother
  rw [share_append, hnone, List.append_nil, h.share]

theorem Twins.without_other (h : r.Twins keep runtime r') {id : StatementId}
    (hother : keep id = false) :
    r.Twins keep runtime { r' with agents := r'.agents.filter fun a => !a.runs id } := by
  refine ⟨?_, h.tame, fun a ha => h.tame' a (List.mem_filter.1 ha).1⟩
  have hall : (r'.share keep).agents.filter (fun a => !a.runs id) = (r'.share keep).agents := by
    refine List.filter_eq_self.2 fun a ha => ?_
    have hkept : keep a.statement.id = true := (List.mem_filter.1 ha).2
    have hne : a.statement.id ≠ id := by
      rintro rfl
      rw [hother] at hkept
      cases hkept
    simpa [Agent.runs] using hne
  rw [share_without, hall, h.share]

theorem Twins.generation (h : r.Twins keep runtime r') : r.generation = r'.generation :=
  (congrArg Running.generation h.share : (r.share keep).generation = (r'.share keep).generation)

theorem Twins.key (h : r.Twins keep runtime r') : r.key = r'.key :=
  (congrArg Running.key h.share : (r.share keep).key = (r'.share keep).key)

theorem Twins.properties (h : r.Twins keep runtime r') : r.properties = r'.properties :=
  (congrArg Running.properties h.share : (r.share keep).properties = (r'.share keep).properties)

end Running

structure Node.Rel {γ : Type} (S : γ → γ → Prop) (n n' : Node γ) : Prop where
  controller : n.controller = n'.controller
  children : S n.children n'.children

structure Branch.Rel {γ : Type} (S : γ → γ → Prop) (b b' : Branch γ) : Prop where
  key : b.key = b'.key
  properties : b.properties = b'.properties
  node : b.node.Rel S b'.node

def Children.Twins (keep : StatementId → Bool) (runtime : Runtime) :
    (below : List Level) → Children below → Children below → Prop
  | [], partitions, partitions' =>
      let partitions : Table Running := partitions
      partitions.Rel (Running.Twins keep runtime) partitions'
  | _ :: below, branches, branches' =>
      let branches : Table (Branch (Children below)) := branches
      branches.Rel (Branch.Rel (Twins keep runtime below)) branches'

structure Twins (keep : StatementId → Bool) (runtime : Runtime) (below : List Level)
    (s s' : Children below × Books) : Prop where
  children : s.1.Twins keep runtime below s'.1
  books : s.2.Twins s'.2

structure Node.Twins (keep : StatementId → Bool) (runtime : Runtime) (below : List Level)
    (s s' : Node (Children below) × Books) : Prop where
  node : s.1.Rel (Children.Twins keep runtime below) s'.1
  books : s.2.Twins s'.2

structure Leaf.Twins (keep : StatementId → Bool) (runtime : Runtime) (ℓ ℓ' : Leaf) : Prop where
  path : ℓ.path = ℓ'.path
  controller : ℓ.controller = ℓ'.controller
  partition : ℓ.partition = ℓ'.partition
  running : ℓ.running.Twins keep runtime ℓ'.running

section

variable {keep : StatementId → Bool} {runtime : Runtime} {below : List Level}

theorem Children.twins_empty :
    (Children.empty below).Twins keep runtime below (Children.empty below) := by
  cases below <;> exact List.Forall₂.nil

theorem Setting.holds_twins {children children' : Children below} {id : ControllerId} {h : Handle}
    (hc : children.Twins keep runtime below children') :
    holds below children id h = holds below children' id h := by
  cases below with
  | nil =>
      cases h with
      | branch => rfl
      | leaf owner p generation =>
          rcases Table.Rel.get? hc p with ⟨ht, hu⟩ | ⟨r, r', ht, hu, hr⟩
          · simp only [holds, ht, hu]
          · simp only [holds, ht, hu, Option.any_some, hr.generation]
  | cons l below =>
      have hbranches : Table.Rel (Branch.Rel (Children.Twins keep runtime below)) children
        children' := hc
      cases h with
      | leaf => rfl
      | branch parent k child =>
          rcases hbranches.get? k with ⟨ht, hu⟩ | ⟨b, b', ht, hu, hb⟩
          · simp only [holds, ht, hu]
          · simp only [holds, ht, hu, Option.any_some, hb.node.controller]

theorem Node.step_twins {n n' : Node (Children below)}
    (hn : n.Rel (Children.Twins keep runtime below) n') {key key' : Key}
    {properties properties' : Props} (hkey : key = key') (hproperties : properties = properties') :
    n.step key properties = n'.step key' properties' := by
  rw [step, step, hn.controller, hkey, hproperties]

theorem Node.leaves_twins {n n' : Node (Children below)}
    (hn : n.Rel (Children.Twins keep runtime below) n') (path : Path) :
    List.Forall₂ (Leaf.Twins keep runtime) (n.leaves below path) (n'.leaves below path) := by
  induction below generalizing path with
  | nil =>
      refine List.rel_map ?_ hn.children
      rintro ⟨p, r⟩ ⟨_, r'⟩ ⟨rfl, hr : r.Twins keep runtime r'⟩
      exact ⟨congrArg (fun step => path ++ [step]) (step_twins hn hr.key hr.properties),
        congrArg Controller.id hn.controller, rfl, hr⟩
  | cons l below ih =>
      refine List.rel_flatMap hn.children ?_
      rintro ⟨k, b⟩ ⟨_, b'⟩ ⟨rfl, hb : b.Rel (Children.Twins keep runtime below) b'⟩
      simp only [step_twins hn hb.key hb.properties]
      exact ih hb.node _

end

theorem Node.atController_twins {α : Type} {keep : StatementId → Bool} {runtime : Runtime}
    {f f' : (below : List Level) → Path → Act (Node (Children below) × Books) α}
    (hf : ∀ below path, Alike (Node.Twins keep runtime below) (f below path) (f' below path))
    (id : ControllerId) {below : List Level} {path : Path} {s s' : Node (Children below) × Books}
    (hs : Node.Twins keep runtime below s s') :
    Option.Rel (fun o o' => o.1 = o'.1 ∧ Node.Twins keep runtime below o.2 o'.2)
      (atController id f below path s) (atController id f' below path s') := by
  induction below generalizing path with
  | nil =>
      obtain ⟨⟨c, children⟩, b⟩ := s
      obtain ⟨⟨_, children'⟩, b'⟩ := s'
      obtain ⟨⟨rfl, hc⟩, hb⟩ := hs
      simp only [atController]
      split
      · exact .some ((hf [] path).run ⟨⟨rfl, hc⟩, hb⟩)
      · exact .none
  | cons l below ih =>
      obtain ⟨⟨c, children⟩, b⟩ := s
      obtain ⟨⟨_, children'⟩, b'⟩ := s'
      obtain ⟨⟨rfl, hc⟩, hb⟩ := hs
      simp only [atController]
      split
      · exact .some ((hf _ path).run ⟨⟨rfl, hc⟩, hb⟩)
      · have hbranches : Table.Rel (Branch.Rel (Children.Twins keep runtime below)) children
          children' := hc
        refine List.Forall₂.findSome? hbranches ?_
        rintro ⟨k, branch⟩ ⟨_, branch'⟩
          ⟨rfl, hbranch : branch.Rel (Children.Twins keep runtime below) branch'⟩
        have hs : Node.Twins keep runtime below (branch.node, b) (branch'.node, b') :=
          ⟨hbranch.node, hb⟩
        have hvisit := @ih (path ++ [Node.step ⟨c, children⟩ branch.key branch.properties]) _ _ hs
        simp only [Node.step, ← hbranch.key, ← hbranch.properties]
        simp only [Node.step] at hvisit
        revert hvisit
        cases atController id f below _ (branch.node, b) <;>
          cases atController id f' below _ (branch'.node, b') <;> rintro (⟨hresult, hn, hbooks⟩ | -)
        · exact .none
        · exact .some ⟨hresult, ⟨rfl, hbranches.replace k ⟨rfl, rfl, hn⟩⟩, hbooks⟩

section visits

variable {ω υ ε α β α' β' : Type}

inductive Pair (S : α → β → Prop) (W : ω → υ → Prop) : Except ε α × ω → Except ε β × υ → Prop where
  | ok {a : α} {b : β} {w : ω} {v : υ} : S a b → W w v → Pair S W (.ok a, w) (.ok b, v)

variable {W : ω → υ → Prop}

@[elab_as_elim]
theorem Pair.elim {S : α → β → Prop} {o : Except ε α × ω} {o' : Except ε β × υ}
    {motive : Except ε α × ω → Except ε β × υ → Prop} (h : Pair S W o o')
    (ok : ∀ a b w v, S a b → W w v → motive (.ok a, w) (.ok b, v)) : motive o o' := by
  cases h with
  | ok hab hwv => exact ok _ _ _ _ hab hwv

theorem Table.traverseIn_rel {R : α → β → Prop} {S : α' → β' → Prop}
    {f : UInt32 → α → ω → Except ε α' × ω} {g : UInt32 → β → υ → Except ε β' × υ}
    (hfg : ∀ k a b w v, R a b → W w v → Pair S W (f k a w) (g k b v))
    {es : List (UInt32 × α)} {es' : List (UInt32 × β)}
    (h : List.Forall₂ (fun e e' => e.1 = e'.1 ∧ R e.2 e'.2) es es') {w : ω} {v : υ} (hw : W w v) :
    Pair (fun out out' => List.Forall₂ (fun e e' => e.1 = e'.1 ∧ S e.2 e'.2) out.1 out'.1) W
      (traverseIn f es w) (traverseIn g es' v) := by
  induction h generalizing w v with
  | nil => exact .ok .nil hw
  | @cons e e' es es' he _ ih =>
      obtain ⟨k, a⟩ := e
      obtain ⟨_, b⟩ := e'
      obtain ⟨rfl, hab⟩ := he
      simp only [traverseIn]
      refine (hfg k a b w v hab hw).elim fun a' b' w' v' hab' hw' => ?_
      simp only
      refine (ih hw').elim fun out out' w'' v'' hout hw'' => ?_
      have hcons : List.Forall₂ (fun e e' => e.1 = e'.1 ∧ S e.2 e'.2) ((k, a') :: out.1)
          ((k, b') :: out'.1) := .cons ⟨rfl, hab'⟩ hout
      exact .ok hcons hw''

theorem Table.traverse_rel {R : α → β → Prop} {S : α' → β' → Prop}
    {f : UInt32 → α → ω → Except ε α' × ω} {g : UInt32 → β → υ → Except ε β' × υ}
    (hfg : ∀ k a b w v, R a b → W w v → Pair S W (f k a w) (g k b v))
    {t : Table α} {u : Table β} (h : t.Rel R u) {w : ω} {v : υ} (hw : W w v) :
    Pair (Table.Rel S) W (t.traverse f w) (u.traverse g v) := by
  rw [Table.traverse, Table.traverse]
  refine (traverseIn_rel hfg h hw).elim fun out out' w' v' hout hw' => ?_
  exact .ok hout hw'

variable {keep : StatementId → Bool} {runtime : Runtime} {below : List Level}

theorem Node.traverseLeaves_twins {f : Leaf → ω → Except ε Running × ω}
    {g : Leaf → υ → Except ε Running × υ}
    (hfg : ∀ ℓ ℓ' w v, ℓ.Twins keep runtime ℓ' → W w v →
      Pair (Running.Twins keep runtime) W (f ℓ w) (g ℓ' v))
    {n n' : Node (Children below)} (hn : n.Rel (Children.Twins keep runtime below) n')
    (path : Path) {w : ω} {v : υ} (hw : W w v) :
    Pair (Node.Rel (Children.Twins keep runtime below)) W (n.traverseLeaves f below path w)
      (n'.traverseLeaves g below path v) := by
  induction below generalizing path w v with
  | nil =>
      have hpartitions : Table.Rel (Running.Twins keep runtime) n.children n'.children :=
        hn.children
      simp only [traverseLeaves]
      refine (Table.traverse_rel (fun p r r' w v hr hw => hfg _ _ w v ?_ hw) hpartitions hw).elim
        fun t t' w' v' ht hw' => .ok ⟨hn.controller, ht⟩ hw'
      exact ⟨congrArg (fun step => path ++ [step]) (step_twins hn hr.key hr.properties),
        congrArg Controller.id hn.controller, rfl, hr⟩
  | cons l below ih =>
      have hbranches : Table.Rel (Branch.Rel (Children.Twins keep runtime below)) n.children
        n'.children := hn.children
      simp only [traverseLeaves]
      refine (Table.traverse_rel (S := Branch.Rel (Children.Twins keep runtime below))
        (fun k b b' w v hb hw => ?_) hbranches hw).elim
        fun t t' w' v' ht hw' => .ok ⟨hn.controller, ht⟩ hw'
      rw [Branch.visit, Branch.visit, step_twins hn hb.key hb.properties]
      refine (ih hb.node _ hw).elim fun m m' w' v' hm hw' => ?_
      exact .ok ⟨hb.key, hb.properties, hm⟩ hw'

theorem Node.traverseLeaves_id {f : Leaf → ω → Except ε Running × ω} {w : ω}
    (hf : ∀ ℓ, f ℓ w = (.ok ℓ.running, w)) (n : Node (Children below)) (path : Path) :
    n.traverseLeaves f below path w = (.ok n, w) := by
  induction below generalizing path with
  | nil =>
      let visit (p : UInt32) (r : Running) : ω → Except ε Running × ω :=
        f ⟨path ++ [n.step r.key r.properties], n.controller.id, p, r⟩
      have hid : Table.traverse visit n.children w = (.ok n.children, w) :=
        Table.traverse_id fun _ _ => hf _
      simp only [visit] at hid
      simp only [traverseLeaves, hid]
  | cons l below ih =>
      let visit (_ : UInt32) (b : Branch (Children below)) :
          ω → Except ε (Branch (Children below)) × ω :=
        b.visit (traverseLeaves f below (path ++ [n.step b.key b.properties]))
      have hid : Table.traverse visit n.children w = (.ok n.children, w) := by
        refine Table.traverse_id fun k b => ?_
        simp only [visit, Branch.visit, ih]
      simp only [visit] at hid
      simp only [traverseLeaves, hid]

end visits

end EventContexts
