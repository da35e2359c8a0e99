import EventContexts.Context.Running
import EventContexts.Proofs.Tree

namespace EventContexts

open Act

namespace Setting

variable {env : Setting} {below : List Level} {limit : Option Nat} {since : Nat}
  {rest : List Number} {path : Path} {strict : Prop} {Q : Leaf → Prop}
  {R : Path → Level → Request → Prop}

theorem accounts_leaves {b : Books} {node : Node (Children below)}
    (h : b.Accounts limit since (node.children.numbers ++ rest)) :
    b.Accounts limit since
      ((node.leaves below path).map (fun ℓ => Number.partition ℓ.partition) ++ rest) := by
  refine h.shed ?_ ?_ ?_
  · rw [List.filterMap_append, List.filterMap_append, node.partitions_numbers path]
    simp [List.filterMap_map, Function.comp_def, Number.partition?]
  · rw [List.filterMap_append, List.filterMap_append]
    simpa [List.filterMap_map, Function.comp_def, Number.controller?] using
      (List.sublist_append_right _ _).subperm
  · rw [List.filterMap_append, List.filterMap_append]
    simpa [List.filterMap_map, Function.comp_def, Number.generation?] using
      (List.sublist_append_right _ _).subperm

theorem closeAll_triple {termination : Option Props} {statementLevel : Bool}
    {node : Node (Children below)} :
    Triple (Books.Accounts limit since (node.children.numbers ++ rest))
      (env.closeAll termination statementLevel below node)
      (fun _ => Books.Accounts limit since rest) (fun _ => Books.Accounts limit since rest) := by
  intro b h
  let leaves := (node.leaves below []).map fun l => (l.partition, l.running.agents)
  have hclose : Triple (Books.Accounts limit since
      (leaves.map (fun leaf => .partition leaf.1) ++ rest))
      (forAll (env.closePartition termination statementLevel) leaves)
      (fun _ => Books.Accounts limit since rest) (fun _ => Books.Accounts limit since rest) :=
    Books.closePartitions_triple leaves
  have hopen : b.Accounts limit since (leaves.map (fun leaf => .partition leaf.1) ++ rest) := by
    rw [List.map_map]
    exact accounts_leaves h
  exact ends_of_state (hclose b hopen).state.updateGauge

structure Shrunk (limit : Option Nat) (since : Nat) (rest : List Number)
    (children : Children below) (k : UInt32) (s : Children below × Books) : Prop where
  table : s.1.table = children.table.erase k
  accounts : s.2.Accounts limit since (s.1.numbers ++ rest)

theorem endChild_stale {termination : Option Props} {id : ControllerId} {h : Handle}
    {children : Children below} {b : Books}
    (hstale : ¬ ∃ e ∈ children.table.entries, h = e.2.handle id e.1) :
    env.endChild termination below id h (children, b) = (.ok (), (children, b)) := by
  have hholds : holds below children id h = false :=
    Bool.eq_false_iff.2 fun hh => hstale (Children.holds_iff.1 hh)
  cases below with
  | nil => simp [endChild, hholds]
  | cons l below => simp [endChild, hholds]

def closeChild (env : Setting) (termination : Option Props) :
    {below : List Level} → UInt32 × Child below → Act Books Unit
  | [], (p, r) => fun b =>
      let (outcome, b) := env.closePartition termination false (p, Running.agents r) b
      (outcome, b.updateGauge)
  | _ :: below, (_, branch) => env.closeAll termination false below (Branch.node branch)

theorem endChild_live {termination : Option Props} {id : ControllerId} {k : UInt32}
    {a : Child below} {children : Children below} {b : Books}
    (hmem : (k, a) ∈ children.table.entries) :
    env.endChild termination below id (a.handle id k) (children, b) =
      ((env.closeChild termination (k, a) b).1,
        (children.erase k, (env.closeChild termination (k, a) b).2)) := by
  have hholds : holds below children id (a.handle id k) = true :=
    Children.holds_iff.2 ⟨(k, a), hmem, rfl⟩
  have hget : children.table.get? k = some a := Table.get?_eq_some.2 hmem
  cases below with
  | nil =>
      let partitions : Table Running := children
      have hget : partitions.get? k = some a := hget
      simp only [endChild, hholds, Child.id_handle, hget, partitions]
      rfl
  | cons l below =>
      let branches : Table (Branch (Children below)) := children
      have hget : branches.get? k = some a := hget
      simp only [endChild, hholds, Child.id_handle, hget, branches]
      rfl

theorem keeps_endChild {termination : Option Props} {id : ControllerId} {h : Handle}
    {P : Children below → Prop} (hP : ∀ {children}, P children → ∀ {k}, P (children.erase k)) :
    Keeps (fun s => P s.1) (env.endChild termination below id h) := by
  rintro ⟨children, b⟩ hs
  by_cases hlive : ∃ e ∈ children.table.entries, h = e.2.handle id e.1
  · obtain ⟨⟨k, a⟩, hmem, rfl⟩ := hlive
    rw [endChild_live hmem]
    exact ends_of_state (hP hs)
  · rw [endChild_stale hlive]
    exact hs

theorem endAt_live {termination : Option Props} {k : UInt32} {a : Child below}
    {node : Node (Children below)} {b : Books} (hmem : (k, a) ∈ node.children.table.entries) :
    env.endAt (a.handle node.controller.id k) termination below (node, b) =
      ((env.closeChild termination (k, a) b).1,
        (node.without (a.handle node.controller.id k),
          (env.closeChild termination (k, a) b).2)) := by
  have hholds : holds below node.children node.controller.id
      (a.handle node.controller.id k) = true := Children.holds_iff.2 ⟨(k, a), hmem, rfl⟩
  simp only [endAt, hholds, if_true, endChild_live hmem, Node.without, Child.id_handle]

theorem endAt_stale {termination : Option Props} {h : Handle} {node : Node (Children below)}
    {b : Books}
    (hstale : ¬ ∃ e ∈ node.children.table.entries, h = e.2.handle node.controller.id e.1) :
    env.endAt h termination below (node, b) = (.ok (), (node, b)) := by
  have hholds : holds below node.children node.controller.id h = false :=
    Bool.eq_false_iff.2 fun hh => hstale (Children.holds_iff.1 hh)
  simp [endAt, hholds]

theorem endChild_triple {termination : Option Props} {id : ControllerId} {k : UInt32}
    {a : Child below} {children : Children below} (hmem : (k, a) ∈ children.table.entries) :
    Triple (fun s => s.1 = children ∧ s.2.Accounts limit since (children.numbers ++ rest))
      (env.endChild termination below id (a.handle id k))
      (fun _ => Shrunk limit since rest children k)
      (fun _ => Shrunk limit since rest children k) := by
  rintro ⟨c, b⟩ ⟨rfl, hb⟩
  let kept := (c.erase k).numbers ++ rest
  have hopen : b.Accounts limit since (Child.numbers (k, a) ++ kept) := by
    rw [← List.append_assoc]
    exact hb.perm ((Children.numbers_of_mem (c.erase k) c.table_erase hmem).append_right rest)
  have hclosed : (env.closeChild termination (k, a) b).2.Accounts limit since kept := by
    cases below with
    | nil =>
        let r : Running := a
        let leaf : UInt32 × List Agent := (k, r.agents)
        have hclose : Triple
            (Books.Accounts limit since (.partition leaf.1 :: .generation r.generation :: kept))
            (env.closePartition termination false leaf)
            (fun _ => Books.Accounts limit since (.generation r.generation :: kept))
            (fun _ => Books.Accounts limit since (.generation r.generation :: kept)) :=
          Books.closePartition_triple
        exact (hclose b hopen).state.dropGeneration.updateGauge
    | cons l below =>
        let branch : Branch (Children below) := a
        have hclose : Triple (Books.Accounts limit since (branch.node.children.numbers ++ kept))
            (env.closeAll termination false below branch.node)
            (fun _ => Books.Accounts limit since kept)
            (fun _ => Books.Accounts limit since kept) := closeAll_triple
        exact (hclose b hopen.dropController).state
  rw [endChild_live hmem]
  exact ends_of_state ⟨c.table_erase, hclosed⟩

structure Opens (env : Setting) (path : Path) (p : UInt32) (recovering : Bool)
    (agents : List Agent) : Prop where
  requests : agents.map Agent.request = env.statements.map (env.startRequest path p recovering)
  blank : ∀ a ∈ agents, a.view = {}

theorem startAgents_opens {p : UInt32} {recovering : Bool} {b : Books} :
    Ends (fun agents _ => env.Opens path p recovering agents) (fun _ _ => True)
      (env.startAgents path p recovering env.statements [] b) := by
  have hstart (ss : List Statement) (started : List Agent) (b : Books) :
      Ends (fun agents _ => ∃ more, agents = started ++ more ∧
          more.map Agent.request = ss.map (env.startRequest path p recovering) ∧
          ∀ a ∈ more, a.view = {}) (fun _ _ => True)
        (env.startAgents path p recovering ss started b) := by
    induction ss generalizing started b with
    | nil => exact ⟨[], by simp, rfl, by simp⟩
    | cons s rest ih =>
        simp only [startAgents, startAgent]
        cases env.runtime.start b.trace (env.startRequest path p recovering s) with
        | error reason => exact trivial
        | ok stopFailure =>
            refine (ih _ _).imp ?_ fun _ _ h => h
            rintro agents _ ⟨more, rfl, hrequests, hblank⟩
            refine ⟨_ :: more, by rw [List.append_assoc]; rfl, by simp [hrequests], ?_⟩
            exact List.forall_mem_cons.2 ⟨rfl, hblank⟩
  refine (hstart env.statements [] b).imp ?_ fun _ _ h => h
  rintro agents _ ⟨more, rfl, hrequests, hblank⟩
  exact ⟨hrequests, hblank⟩

theorem fst_offerAll {e : Event} {agents : List Agent} {b : Books} :
    (offerAll e agents b).1 = agents.map fun a => a.evaluate e := by
  induction agents generalizing b with
  | nil => rfl
  | cons a rest ih =>
      have hoffer : (a.offer e b).1 = a.evaluate e := by
        rw [Agent.offer, Agent.evaluate]
        split <;> rfl
      rcases ho : a.offer e b with ⟨a', b'⟩
      rw [ho] at hoffer
      simp [offerAll, ho, hoffer, ih]

def triggered (trigger : Option Event) (agents : List Agent) : List Agent :=
  trigger.elim agents fun e => agents.map fun a => a.evaluate e

def activation (env : Setting) (r : Request) : Activation :=
  { trigger := r.trigger, recovered := r.recovered.getD [], now := env.now }

/-- Requests with `R` start partitions with `Q`, however far down. -/
structure Policy (env : Setting) (since : Nat) (R : Path → Level → Request → Prop)
    (Q : Leaf → Prop) : Prop where
  inherit : ∀ {path l r}, R path l r → ∀ {l' r'}, l'.flaw? = none →
    r'.Answers l' (env.activation r) → R (path ++ [⟨l, r.key, r.properties⟩]) l' r'
  seed : ∀ {path l r id p generation agents}, R path l r → since ≤ generation →
    env.Opens (path ++ [⟨l, r.key, capture r⟩]) p r.recovered.isSome agents →
    Q ⟨path ++ [⟨l, r.key, capture r⟩], id, p,
      ⟨generation, r.key, capture r, triggered r.trigger agents⟩⟩

structure Kept (limit : Option Nat) (since : Nat) (strict : Prop) (id : ControllerId)
    (rest : List Number) (each : UInt32 × Child below → Prop) (brood : Brood)
    (s : Children below × Books) : Prop where
  family : Family strict id each brood s.1.table
  accounts : s.2.Accounts limit since (s.1.numbers ++ rest)

structure Stands (limit : Option Nat) (since : Nat) (strict : Prop) (post : Post)
    (rest : List Number) (each : UInt32 × Child below → Prop)
    (s : Node (Children below) × Books) : Prop where
  manned : Controller.Manned post (fun brood c => Family strict post.id each brood c.table)
    s.1.controller s.1.children
  accounts : s.2.Accounts limit since (s.1.children.numbers ++ rest)

theorem manned_iff_stands {post : Post} {each : UInt32 × Child below → Prop}
    {controller : Controller} {s : Children below × Books} :
    Controller.Manned post (Kept limit since strict post.id rest each) controller s ↔
      Stands limit since strict post rest each (⟨controller, s.1⟩, s.2) := by
  constructor
  · rintro ⟨hstands, hlevel, hsound, hkept⟩
    exact ⟨⟨hstands, hlevel, hsound, hkept.family⟩, hkept.accounts⟩
  · rintro ⟨⟨hstands, hlevel, hsound, hfamily⟩, haccounts⟩
    exact ⟨hstands, hlevel, hsound, hfamily, haccounts⟩

structure Grown (env : Setting) (since : Nat) (Q : Leaf → Prop) (strict : Prop)
    (below : List Level) (path : Path) (post : Post) (rest : List Number)
    (children : Children below) (r : Request) (h : Handle) (s : Children below × Books) : Prop where
  child : ∃ (k : UInt32) (a : Child below), k ∉ children.table.keys ∧
    s.1.table = children.table.insert k a ∧ h = a.handle post.id k ∧ a.key = r.key ∧
    Child.Sound Q strict below path post (k, a)
  accounts : s.2.Accounts env.limit since (s.1.numbers ++ rest)

/-- Starting a child adds one that is in order, or nothing. -/
def Grows (env : Setting) (since : Nat) (R : Path → Level → Request → Prop) (Q : Leaf → Prop)
    (strict : Prop) (below : List Level) : Prop :=
  ∀ (path : Path) (owner : Controller) (rest : List Number) (children : Children below)
    (r : Request), R path owner.level r →
    Triple (fun s => s.1 = children ∧ s.2.Accounts env.limit since (children.numbers ++ rest))
      (env.startChild below path owner r)
      (env.Grown since Q strict below path owner.post rest children r)
      (fun _ s => s.1 = children ∧ s.2.Accounts env.limit since (children.numbers ++ rest))

theorem grown_of_opens (strict : Prop) (hp : env.Policy since R Q) {owner : Controller}
    {r : Request} {c : Children []} {p : UInt32} {agents : List Agent} {b : Books}
    (hr : R path owner.level r)
    (hb : b.Accounts env.limit since (.partition p :: (c.numbers ++ rest)))
    (hopens : env.Opens (path ++ [⟨owner.level, r.key, capture r⟩]) p r.recovered.isSome agents) :
    env.Grown since Q strict [] path owner.post rest c r (.leaf owner.id p b.nextGeneration)
      ((c : Table Running).insert p
          ⟨b.nextGeneration, r.key, capture r, triggered r.trigger agents⟩,
        ({ b with nextGeneration := b.nextGeneration + 1 }.count
          Metrics.countCreated).updateGauge) := by
  let running : Running := ⟨b.nextGeneration, r.key, capture r, triggered r.trigger agents⟩
  let child : Child [] := running
  let c' : Children [] := (c : Table Running).insert p running
  have hnew : p ∉ c.table.keys := fun hmem =>
    hb.not_mem_partition (List.mem_append_left _ (Children.partition_mem_numbers hmem))
  have hnumbers : c'.numbers.Perm (.partition p :: .generation b.nextGeneration :: c.numbers) :=
    Children.numbers_of_insert (a := child) rfl hnew
  refine ⟨⟨p, child, hnew, rfl, rfl, rfl, hp.seed hr hb.since hopens⟩, ?_⟩
  have hopen := (hb.openGeneration.count Metrics.countCreated).updateGauge
  exact hopen.perm ((List.Perm.swap ..).trans (hnumbers.append_right rest).symm)

theorem grows_nil (hp : env.Policy since R Q) : env.Grows since R Q strict [] := by
  rintro path owner rest children r hr ⟨c, b⟩ ⟨rfl, hb⟩
  simp only [startChild, startPartition]
  split
  · exact ⟨rfl, hb⟩
  · next hlimit =>
      have hroom : ∀ n ∈ env.limit, b.ids.count < n := by
        intro n hn
        rw [Option.mem_def.1 hn] at hlimit
        simpa using hlimit
      have hclaim : Ends
          (fun p b' => b'.Accounts env.limit since (.partition p :: (c.numbers ++ rest)))
          (fun _ b' => b'.Accounts env.limit since (c.numbers ++ rest)) (env.claim r.assigned b) :=
        hb.claim hroom r.assigned
      rcases hc : env.claim r.assigned b with ⟨e | p, b₁⟩
      · rw [hc] at hclaim
        exact ⟨rfl, hclaim⟩
      · rw [hc] at hclaim
        -- the claimed identifier goes to the new partition, or back if an instance fails to start
        let path' : Path := path ++ [⟨owner.level, r.key, capture r⟩]
        let start := env.startAgents path' p r.recovered.isSome env.statements []
        have hkeeps : Keeps
            (Books.Accounts env.limit since (.partition p :: (c.numbers ++ rest))) start :=
          Books.keeps_startAgents
        have hstart := (hkeeps b₁ hclaim).and startAgents_opens
        rcases hs : start b₁ with ⟨e | agents, b₂⟩
        · rw [hs] at hstart
          simp only [start, path'] at hs
          simp only [hs]
          exact ⟨rfl, hstart.1.release⟩
        · rw [hs] at hstart
          obtain ⟨hb₂, hopens⟩ := hstart
          simp only [start, path'] at hs
          simp only [hs]
          cases htrigger : r.trigger with
          | none =>
              have hgrown := grown_of_opens strict hp hr hb₂ hopens
              rw [htrigger] at hgrown
              exact hgrown
          | some e =>
              have hb₃ := Books.accounts_offerAll e agents hb₂
              have hgrown := grown_of_opens strict hp hr hb₃ hopens
              rw [htrigger, triggered, Option.elim, ← fst_offerAll] at hgrown
              exact hgrown

variable {owner : Controller} {each each' : UInt32 × Child below → Prop}

theorem start_triple (h : env.Grows since R Q strict below) {r : Request} {brood : Brood}
    (hr : R path owner.level r) (hkey : r.key ∉ brood.keys)
    (hold : ∀ e, (strict → e.2.key ≠ r.key) → each e → each' e)
    (hnew : ∀ e, e.2.key = r.key → Child.Sound Q strict below path owner.post e → each' e) :
    Triple (Kept env.limit since strict owner.id rest each brood)
      ((env.lifecycle below path owner).start r)
      (fun h => Kept env.limit since strict owner.id rest each' (brood.insert r.key h))
      (fun _ => Kept env.limit since strict owner.id rest each brood) := by
  rintro ⟨c, b⟩ hs
  refine (h path owner rest c r hr (c, b) ⟨rfl, hs.accounts⟩).imp ?_ ?_
  · rintro _ ⟨c', b'⟩ ⟨⟨k, a, hk, hc', rfl, hakey, hchild⟩, haccounts⟩
    refine ⟨?_, haccounts⟩
    have hold' : ∀ e ∈ c.table.entries, each e → each' e := by
      intro e he
      refine hold e fun hstrict heq => hkey ?_
      rw [← heq]
      have hpair := (hs.family.remembered hstrict).mem_iff.2
        (List.mem_map_of_mem (f := fun e => (e.2.key, e.2.handle owner.id e.1)) he)
      exact List.mem_map_of_mem hpair
    rw [hc', ← hakey]
    exact (hs.family.mono hold').insert hk (hakey ▸ hkey) (hnew _ hakey hchild)
  · rintro _ ⟨c', b'⟩ ⟨rfl, haccounts⟩
    exact ⟨hs.family, haccounts⟩

theorem stop_triple {brood : Brood} {key : Key} {handle : Handle}
    (hmem : (key, handle) ∈ brood.entries) :
    Triple (Kept env.limit since strict owner.id rest each brood)
      ((env.lifecycle below path owner).stop handle)
      (fun _ => Kept env.limit since strict owner.id rest each (brood.erase key))
      (fun _ => Kept env.limit since strict owner.id rest each (brood.erase key)) := by
  rintro ⟨c, b⟩ hs
  by_cases hlive : ∃ e ∈ c.table.entries, handle = e.2.handle owner.id e.1
  · obtain ⟨⟨k, a⟩, he, rfl⟩ := hlive
    have hkey (hstrict : strict) : a.key = key := by
      have hpair := (hs.family.remembered hstrict).mem_iff.1 hmem
      obtain ⟨⟨k', a'⟩, he', heq⟩ := List.mem_map.1 hpair
      obtain ⟨rfl, hhandle⟩ := Prod.mk.inj heq
      obtain rfl := Child.handle_inj hhandle
      rw [Table.eq_of_mem he he']
    have hdone (s : Children below × Books) (hs' : Shrunk env.limit since rest c k s) :
        Kept env.limit since strict owner.id rest each (brood.erase key) s := by
      refine ⟨?_, hs'.accounts⟩
      rw [hs'.table]
      exact hs.family.erase he hkey
    exact ((endChild_triple he).imp (fun _ h => h) (fun _ => hdone) fun _ => hdone) (c, b)
      ⟨rfl, hs.accounts⟩
  · -- only a child started by somebody else can make a remembered handle stale
    have hstale : (env.lifecycle below path owner).stop handle (c, b) = (.ok (), (c, b)) :=
      endChild_stale hlive
    rw [hstale]
    refine ⟨⟨fun hstrict => absurd ?_ hlive, hs.family.each⟩, hs.accounts⟩
    have hpair := (hs.family.remembered hstrict).mem_iff.1 hmem
    obtain ⟨e, he, heq⟩ := List.mem_map.1 hpair
    exact ⟨e, he, (Prod.mk.inj heq).2.symm⟩

theorem honours_of_grows (h : env.Grows since R Q strict below) :
    (env.lifecycle below path owner).Honours (R path owner.level)
      (Kept env.limit since strict owner.id rest (Child.Sound Q strict below path owner.post)) :=
  ⟨fun hr hkey => start_triple h hr hkey (fun _ _ he => he) fun _ _ he => he, stop_triple⟩

theorem stands_fresh {l : Level} {id : ControllerId} {place : UInt32} {nesting : Nat} {b : Books}
    (hb : b.Accounts limit since rest) :
    Stands limit since strict ⟨id, place, nesting, l⟩ rest each
      (⟨Controller.create l id place nesting, Children.empty below⟩, b) := by
  refine ⟨⟨?_, Scheme.tended_ofLevel (Family.empty.2 ⟨fun _ => ?_, ?_⟩)⟩, ?_⟩
  · exact congrArg (Post.mk id place nesting) (Scheme.level_ofLevel l)
  · exact Children.entries_empty
  · simp [Children.entries_empty]
  · rwa [Children.numbers_empty, List.nil_append]

theorem keeps_activate {post : Post} {a : Activation} (h : env.Grows since R Q strict below)
    (howner : owner.post = post) (hl : post.level.flaw? = none)
    (hR : ∀ r, r.Answers post.level a → R path post.level r) :
    Keeps (fun p => Stands env.limit since strict post rest
        (Child.Sound Q strict below path post) (⟨p.1, p.2.1⟩, p.2.2))
      (Controller.activate (env.lifecycle below path owner) a) := by
  subst howner
  have hlife : (env.lifecycle below path owner).Honours (R path owner.post.level)
      (Kept env.limit since strict owner.post.id rest
        (Child.Sound Q strict below path owner.post)) := honours_of_grows h
  exact (Controller.keeps_activate hlife hl hR).imp (fun _ hs => manned_iff_stands.2 hs)
    (fun _ _ hs => manned_iff_stands.1 hs) fun _ _ hs => manned_iff_stands.1 hs

theorem grown_of_stands {l : Level} {r : Request} {c : Children (l :: below)}
    {child : ControllerId} {node : Node (Children below)} {b : Books}
    (hnew : r.path ∉ c.table.keys)
    (h : Stands env.limit since strict ⟨child, r.path, owner.nesting + 1, l⟩
      (.controller child :: (c.numbers ++ rest))
      (Child.Sound Q strict below (path ++ [⟨owner.level, r.key, r.properties⟩])
        ⟨child, r.path, owner.nesting + 1, l⟩) (node, b)) :
    env.Grown since Q strict (l :: below) path owner.post rest c r (.branch owner.id r.path child)
      ((c : Table (Branch (Children below))).insert r.path
        { key := r.key, properties := r.properties, node }, b) := by
  obtain ⟨hnode, hb⟩ := h
  have hid : node.controller.id = child := congrArg Post.id hnode.stands
  let branch : Branch (Children below) := { key := r.key, properties := r.properties, node }
  let a : Child (l :: below) := branch
  let c' : Children (l :: below) := (c : Table (Branch (Children below))).insert r.path branch
  have hsound : Node.Sound Q strict below (path ++ [⟨owner.level, r.key, r.properties⟩])
      ⟨node.controller.id, r.path, owner.nesting + 1, l⟩ node := by
    rw [hid]
    exact hnode
  have hnumbers : c'.numbers.Perm (node.numbers ++ c.numbers) :=
    Children.numbers_of_insert (a := a) rfl hnew
  refine ⟨⟨r.path, a, hnew, rfl, ?_, rfl, Child.sound_branch.2 hsound⟩, ?_⟩
  · exact congrArg (Handle.branch owner.id r.path) hid.symm
  · refine hb.perm (List.Perm.trans ?_ (hnumbers.append_right rest).symm)
    rw [Node.numbers, hid, List.append_assoc]
    exact List.perm_middle

theorem grows_cons {l : Level} (hl : l.flaw? = none) (hp : env.Policy since R Q)
    (ih : env.Grows since R Q strict below) : env.Grows since R Q strict (l :: below) := by
  rintro path owner rest children r hr ⟨c, b⟩ ⟨rfl, hb⟩
  let branches : Table (Branch (Children below)) := c
  simp only [startChild]
  split
  · exact ⟨rfl, hb.skipController⟩
  · next hc =>
      have hnew : r.path ∉ branches.keys := fun hmem => hc (Table.contains_iff.2 hmem)
      let child : ControllerId := ⟨b.nextController⟩
      let path' : Path := path ++ [⟨owner.level, r.key, r.properties⟩]
      let fresh := Controller.create l child r.path (owner.nesting + 1)
      let post' : Post := ⟨child, r.path, owner.nesting + 1, l⟩
      let rest' := .controller child :: (c.numbers ++ rest)
      have hpost : fresh.post = post' := congrArg (Post.mk child r.path _) (Scheme.level_ofLevel l)
      let Standing (p : Controller × (Children below × Books)) : Prop :=
        Stands env.limit since strict post' rest' (Child.Sound Q strict below path' post')
          (⟨p.1, p.2.1⟩, p.2.2)
      have hactivate : Keeps Standing
          (Controller.activate (env.lifecycle below path' fresh) (env.activation r)) :=
        keeps_activate ih hpost hl fun r' hr' => hp.inherit hr hl hr'
      have hready : Standing
          (fresh, (Children.empty below, { b with nextController := b.nextController + 1 })) :=
        stands_fresh hb.openController
      have hdone := hactivate _ hready
      split
      · next controller grown b₂ heq => exact grown_of_stands hnew (hdone.congr heq)
      · next e controller grown b₂ heq =>
          -- what the activation started before it failed is closed again
          have hstands : Standing (controller, (grown, b₂)) := hdone.congr heq
          let node : Node (Children below) := { controller, children := grown }
          have hclose : Triple (Books.Accounts env.limit since (node.children.numbers ++ rest'))
              (env.closeAll none false below node) (fun _ => Books.Accounts env.limit since rest')
              (fun _ => Books.Accounts env.limit since rest') := closeAll_triple
          have hclosed := (hclose b₂ hstands.accounts).state
          exact ⟨rfl, hclosed.dropController⟩

theorem grows (hp : env.Policy since R Q) :
    ∀ below : List Level, (∀ l ∈ below, l.flaw? = none) → env.Grows since R Q strict below
  | [], _ => grows_nil hp
  | l :: below, h =>
      grows_cons (h l (List.mem_cons_self ..)) hp
        (grows hp below fun m hm => h m (List.mem_cons_of_mem _ hm))

theorem lifecycle_honours (hp : env.Policy since R Q) (hl : ∀ l ∈ below, l.flaw? = none) :
    (env.lifecycle below path owner).Honours (R path owner.level)
      (Kept env.limit since strict owner.id rest (Child.Sound Q strict below path owner.post)) :=
  honours_of_grows (grows hp below hl)

end Setting

end EventContexts
