import EventContexts.Proofs.Bequests
import EventContexts.Proofs.Startup

namespace EventContexts

open Act

variable {levels below : List Level} {path : Path} {xs : List Assignment} {owner : Controller}
  {post : Post} {r : Request} {env : Setting}

namespace Path

/-- What comes down a path, of the assignments that the root wakes up with. -/
def legacy (xs : List Assignment) (path : Path) : Legacy :=
  path.foldl (fun given step => step.level.bequest (given.2.getD []) step.key) (none, some xs)

def estate (xs : List Assignment) (path : Path) : List Assignment := (path.legacy xs).2.getD []

theorem legacy_concat {step : Step} :
    legacy xs (path ++ [step]) = step.level.bequest (path.estate xs) step.key := by
  simp [legacy, estate]

theorem estate_cons {step : Step} :
    estate xs (step :: path) = path.estate ((step.level.bequest xs step.key).2.getD []) := by
  cases path <;> simp [legacy, estate]

end Path

/-- Has the identifier that comes down to it, and has instances that are told whether there was
anything to recreate. -/
structure Leaf.Inherits (xs : List Assignment) (ℓ : Leaf) : Prop where
  partition : ∀ p ∈ (ℓ.path.legacy xs).1, ℓ.partition = p
  agents : ∀ g ∈ ℓ.running.agents, g.request.recovering = (ℓ.path.legacy xs).2.isSome

structure Step.Called (levels : List Level) (xs : List Assignment) (path : Path) (step : Step) :
    Prop where
  declared : path.map Step.level ++ [step.level] <+: levels
  calls : ∃ a : Activation, a.recovered = path.estate xs ∧ step.level.Calls a step.key

structure Request.Due (levels : List Level) (xs : List Assignment) (below : List Level)
    (path : Path) (l : Level) (r : Request) : Prop where
  declared : path.map Step.level ++ l :: below = levels
  wakes : ∃ a : Activation, a.recovered = path.estate xs ∧ r.Wakes l a

namespace Request.Due

variable {l m : Level} {props : Props}

theorem legacy (h : r.Due levels xs below path l) :
    Path.legacy xs (path ++ [⟨l, r.key, props⟩]) = r.legacy := by
  obtain ⟨a, ha, hwakes⟩ := h.wakes
  rw [Path.legacy_concat, ← ha]
  exact hwakes.legacy.symm

theorem called (h : r.Due levels xs below path l) :
    Step.Called levels xs path ⟨l, r.key, props⟩ := by
  obtain ⟨a, ha, hwakes⟩ := h.wakes
  refine ⟨⟨below, ?_⟩, a, ha, hwakes.calls⟩
  rw [← h.declared, List.append_assoc, List.singleton_append]

theorem inherit (h : r.Due levels xs (m :: below) path l) {r' : Request}
    (hr' : r'.Wakes m (env.activation r)) :
    r'.Due levels xs below (path ++ [⟨l, r.key, props⟩]) m := by
  refine ⟨?_, env.activation r, ?_, hr'⟩
  · rw [← h.declared, List.map_append, List.append_assoc]
    rfl
  · rw [Path.estate, h.legacy]
    rfl

end Request.Due

/-- Everything under a node is what became of the assignments that the root woke up with. -/
def Children.Inherit (levels : List Level) (xs : List Assignment) :
    (below : List Level) → Path → Post → Children below → Prop
  | [], path, post, partitions =>
      let partitions : Table Running := partitions
      ∀ e ∈ partitions.entries,
        let step : Step := ⟨post.level, e.2.key, e.2.properties⟩
        step.Called levels xs path ∧ Leaf.Inherits xs ⟨path ++ [step], post.id, e.1, e.2⟩
  | _ :: below, path, post, branches =>
      let branches : Table (Branch (Children below)) := branches
      ∀ e ∈ branches.entries,
        let step : Step := ⟨post.level, e.2.key, e.2.properties⟩
        step.Called levels xs path ∧
          e.2.node.children.Inherit levels xs below (path ++ [step]) e.2.node.controller.post

namespace Children

variable {children : Children below}

theorem inherit_empty : (Children.empty below).Inherit levels xs below path post := by
  cases below <;> exact fun e he => (List.not_mem_nil he).elim

theorem Inherit.erase (h : children.Inherit levels xs below path post) {k : UInt32} :
    (children.erase k).Inherit levels xs below path post := by
  cases below <;> exact fun e he => h e (Table.mem_erase.1 he).1

end Children

namespace Node

def steps : (below : List Level) → Path → Node (Children below) → List (Path × Step)
  | [], path, node =>
      let partitions : Table Running := node.children
      partitions.entries.map fun (_, r) => (path, node.step r.key r.properties)
  | _ :: below, path, node =>
      let branches : Table (Branch (Children below)) := node.children
      branches.entries.flatMap fun (_, b) =>
        let step := node.step b.key b.properties
        (path, step) :: steps below (path ++ [step]) b.node

theorem called_of_inherit {node : Node (Children below)}
    (h : node.children.Inherit levels xs below path node.controller.post) {t : Path × Step}
    (ht : t ∈ node.steps below path) : t.2.Called levels xs t.1 := by
  induction below generalizing path with
  | nil =>
      obtain ⟨e, he, rfl⟩ := List.mem_map.1 ht
      exact (h e he).1
  | cons l below ih =>
      obtain ⟨e, he, ht⟩ := List.mem_flatMap.1 ht
      rcases List.mem_cons.1 ht with rfl | ht
      · exact (h e he).1
      · exact ih (h e he).2 ht

theorem inherits_of_inherit {node : Node (Children below)}
    (h : node.children.Inherit levels xs below path node.controller.post) {ℓ : Leaf}
    (hℓ : ℓ ∈ node.leaves below path) : ℓ.Inherits xs := by
  induction below generalizing path with
  | nil =>
      obtain ⟨e, he, rfl⟩ := List.mem_map.1 hℓ
      exact (h e he).2
  | cons l below ih =>
      obtain ⟨e, he, hℓ⟩ := List.mem_flatMap.1 hℓ
      exact ih (h e he).2 hℓ

end Node

namespace Setting

theorem claim_assigned {assigned : Option UInt32} {b : Books} :
    Ends (fun p _ => ∀ i ∈ assigned, p = i) (fun _ _ => True) (env.claim assigned b) := by
  rw [claim.eq_def]
  split
  · next p =>
      split
      · rintro i ⟨⟩
        rfl
      · trivial
  · split
    · rintro i ⟨⟩
    · trivial

theorem Opens.recovering {p : UInt32} {recovering : Bool} {agents : List Agent}
    (h : env.Opens path p recovering agents) {trigger : Option Event} :
    ∀ g ∈ triggered trigger agents, g.request.recovering = recovering := by
  have hopened : ∀ g ∈ agents, g.request.recovering = recovering := by
    intro g hg
    have hmem : g.request ∈ env.statements.map (env.startRequest path p recovering) := by
      rw [← h.requests]
      exact List.mem_map_of_mem hg
    obtain ⟨s, -, hs⟩ := List.mem_map.1 hmem
    rw [← hs]
    rfl
  cases trigger with
  | none => exact hopened
  | some e =>
      intro g hg
      obtain ⟨g', hg', rfl⟩ := List.mem_map.1 hg
      rw [Agent.request_evaluate]
      exact hopened g' hg'

theorem startPartition_inherits {partitions : Table Running} {b : Books}
    (hr : r.Due levels xs [] path owner.level)
    (hold : Children.Inherit levels xs [] path owner.post partitions) :
    Ends (fun _ s => Children.Inherit levels xs [] path owner.post s.1)
      (fun _ s => Children.Inherit levels xs [] path owner.post s.1)
      (env.startPartition owner path r (partitions, b)) := by
  let step : Step := ⟨owner.level, r.key, capture r⟩
  have hinsert (trigger : Option Event) {p : UInt32} {generation : Nat} {agents : List Agent}
      (hp : ∀ i ∈ r.assigned, p = i)
      (hopens : env.Opens (path ++ [step]) p r.recovered.isSome agents) :
      Children.Inherit levels xs [] path owner.post
        (partitions.insert p ⟨generation, r.key, capture r, triggered trigger agents⟩) := by
    let running : Running := ⟨generation, r.key, capture r, triggered trigger agents⟩
    have hlegacy : Path.legacy xs (path ++ [step]) = r.legacy := hr.legacy
    have hleaf : Leaf.Inherits xs ⟨path ++ [step], owner.id, p, running⟩ := by
      constructor
      · simp only [hlegacy]
        exact hp
      · simp only [hlegacy]
        exact hopens.recovering
    intro e he
    rcases Table.mem_insert.1 he with rfl | ⟨he, -⟩
    · exact ⟨hr.called, hleaf⟩
    · exact hold e he
  simp only [startPartition]
  split
  · exact hold
  · have hclaim : Ends (fun p _ => ∀ i ∈ r.assigned, p = i) (fun _ _ => True)
        (env.claim r.assigned b) := claim_assigned
    split
    · exact hold
    · next p b₁ heq =>
        have hp : ∀ i ∈ r.assigned, p = i := hclaim.congr heq
        have hstart : Ends (fun agents _ =>
              env.Opens (path ++ [step]) p r.recovered.isSome agents) (fun _ _ => True)
            (env.startAgents (path ++ [step]) p r.recovered.isSome env.statements [] b₁) :=
          startAgents_opens
        split
        · exact hold
        · next agents b₂ heq =>
            have hopens : env.Opens (path ++ [step]) p r.recovered.isSome agents :=
              hstart.congr heq
            cases r.trigger with
            | none => exact hinsert none hp hopens
            | some e =>
                simp only [fst_offerAll]
                exact hinsert (some e) hp hopens

theorem lifecycle_inherits :
    (env.lifecycle below path owner).Serves (Request.Due levels xs below path owner.level)
      (fun s => s.1.Inherit levels xs below path owner.post) := by
  have hstop {below : List Level} {path : Path} {owner : Controller} (h : Handle) :
      Keeps (fun s => s.1.Inherit levels xs below path owner.post)
        (env.endChild none below owner.id h) :=
    keeps_endChild Children.Inherit.erase
  -- on the levels below: a branch wakes up on the estate one step further down
  induction below generalizing path owner with
  | nil => exact ⟨fun hr _ hs => startPartition_inherits hr hs, hstop⟩
  | cons m below ih =>
      refine ⟨fun {r} hr => ?_, hstop⟩
      rintro ⟨children, b⟩ hs
      simp only [lifecycle, startChild]
      split
      · exact hs
      · let step : Step := ⟨owner.level, r.key, r.properties⟩
        let fresh := Controller.create m ⟨b.nextController⟩ r.path (owner.nesting + 1)
        let life := env.lifecycle below (path ++ [step]) fresh
        have hlevel : fresh.post.level = m := Scheme.level_ofLevel m
        have hlife : life.Serves (Request.Wakes fresh.post.level (env.activation r))
            (fun s => s.1.Inherit levels xs below (path ++ [step]) fresh.post) := by
          refine ih.mono fun r' hr' => ?_
          show r'.Due levels xs below (path ++ [step]) fresh.post.level
          rw [hlevel] at hr' ⊢
          exact hr.inherit hr'
        have hwoken := Controller.wakes_activate hlife
          (fresh, (Children.empty below, { b with nextController := b.nextController + 1 }))
          ⟨rfl, Children.inherit_empty⟩
        split
        · next controller grown b' heq =>
            obtain ⟨hpost, hgrown⟩ := hwoken.congr heq
            intro e he
            rcases Table.mem_insert.1 he with rfl | ⟨he, -⟩
            · refine ⟨hr.called, ?_⟩
              rw [hpost]
              exact hgrown
            · exact hs e he
        · exact hs

end Setting

namespace Context

variable {c c' : Context} {runtime : Runtime} {s : Statement}

def steps (c : Context) : List (Path × Step) :=
  match c.root with
  | some root => root.steps _ []
  | none => []

theorem awaken_inherits :
    Ends (fun _ c' => ∃ root books, c' = { c with root := some root, recovery := none, books } ∧
        root.children.Inherit c.declaration.levels (c.recovery.getD []) c.declaration.inner []
          root.controller.post)
      (fun _ _ => True) (awaken runtime c) := by
  let first := c.bare.1.controller
  have hlevel : first.level = c.declaration.outer := Scheme.level_ofLevel _
  have hlife : ((c.setting runtime).lifecycle c.declaration.inner [] first).Serves
      (Request.Wakes first.post.level c.activation)
      (fun s => s.1.Inherit c.declaration.levels (c.recovery.getD []) c.declaration.inner []
        first.post) :=
    Setting.lifecycle_inherits.mono fun r hr =>
      ⟨congrArg (· :: _) hlevel, c.activation, rfl, hr⟩
  have hwoken := Controller.wakes_activate hlife (first, (c.bare.1.children, c.bare.2))
    ⟨rfl, Children.inherit_empty⟩
  have hdone : Ends (fun _ s => s.1.children.Inherit c.declaration.levels (c.recovery.getD [])
        c.declaration.inner [] s.1.controller.post) (fun _ _ => True)
      ((c.setting runtime).drive c.declaration.inner []
        (fun life => Controller.activate life c.activation) c.bare) := by
    refine Setting.drive_ends (hwoken.imp ?_ fun _ _ _ => trivial)
    rintro - p ⟨hpost, hgrown⟩
    rw [hpost]
    exact hgrown
  exact (ends_awaken hdone).imp (fun _ _ h => h) fun _ _ _ => trivial

theorem attach_inherits (hroot : c.root = none) (hok : (attach runtime s c).1 = .ok ()) :
    (∀ ℓ ∈ (attach runtime s c).2.leaves, ℓ.Inherits (c.recovery.getD [])) ∧
      ∀ t ∈ (attach runtime s c).2.steps,
        t.2.Called c.declaration.levels (c.recovery.getD []) t.1 := by
  rcases hattach : attach runtime s c with ⟨outcome, c'⟩
  rw [hattach] at hok
  obtain rfl : outcome = .ok () := hok
  obtain ⟨-, -, hawaken⟩ := (attach_ok_iff hroot).1 hattach
  have hdone : Ends _ _ (awaken runtime { c with statements := c.statements ++ [s] }) :=
    awaken_inherits
  obtain ⟨root, books, rfl, hinherit⟩ := hdone.congr hawaken
  exact ⟨fun ℓ hℓ => Node.inherits_of_inherit hinherit hℓ,
    fun t ht => Node.called_of_inherit hinherit ht⟩

/-- What a controller asks for as it wakes up has the identifier and the children of the key's first
assignment, or nothing where there is none; of a time range, the identifier alone. Down the tree, a
partition has the identifier that comes down its path, and its instances are told that they recover
where anything to recreate does. -/
theorem assignments_come_down {σ : Type} (life : Lifecycle σ) (x : Controller) (a : Activation)
    (t : σ) :
    (∀ q ∈ (Controller.activate life.noting a (x, (t, []))).2.2.2,
      q.1.legacy = x.level.bequest a.recovered q.1.key) ∧
    ∀ {runtime : Runtime} {s : Statement} {c : Context}, c.root = none →
      (attach runtime s c).1 = .ok () →
      ∀ ℓ ∈ (attach runtime s c).2.leaves, ℓ.Inherits (c.recovery.getD []) := by
  refine ⟨fun q hq => ?_, fun hroot hok => (attach_inherits hroot hok).1⟩
  have hnoted : life.noting.Serves (Request.Wakes x.post.level a)
      (fun s => ∀ q ∈ s.2, q.1.Wakes x.post.level a) := Lifecycle.noting_serves
  have hwoken := Controller.wakes_activate hnoted (x, (t, []))
    ⟨rfl, fun _ h => (List.not_mem_nil h).elim⟩
  exact (hwoken.state.2 q hq).legacy

def idle : Lifecycle Unit :=
  { start := fun _ => pure (.leaf ⟨0⟩ 0 0), stop := fun _ => pure () }

def returning : List Assignment :=
  [{ key := .keyed [.int 1]
     children := [{ key := .hash 2, partition := some 5 }] }]

theorem returning_come_down :
    let x := Controller.create baskets.outer ⟨0⟩ 0 1
    let c := Context.new baskets {} none (some returning)
    (∀ q ∈ (Controller.activate idle.noting { recovered := returning } (x, ((), []))).2.2.2,
      q.1.legacy = x.level.bequest returning q.1.key) ∧
    (attach .collecting seen c).1 = .ok () ∧ (attach .collecting seen c).2.allocatedIds = [5] ∧
      ∀ ℓ ∈ (attach .collecting seen c).2.leaves, ℓ.Inherits returning := by
  intro x c
  have hok : (attach .collecting seen c).1 = .ok () := by decide +kernel
  obtain ⟨hasked, hleaves⟩ := assignments_come_down idle x { recovered := returning } ()
  exact ⟨hasked, hok, by decide +kernel, hleaves rfl hok⟩

def dayLong : Declaration :=
  { name := "daily"
    outer := .temporal { name := "day", start := 0, stop := 100 }
    inner := []
    sound := by decide
    distinct := by decide }

def interrupted : List Assignment := [{ key := .temporal 0 100, partition := some 7 }]

/-- A partition of a time range comes back under its identifier, but as if it were new. -/
theorem interrupted_starts_over :
    (¬ ∀ (x : Controller) (a : Activation), x.level.kind ≠ .initiatedTerminated →
      ∀ q ∈ (Controller.activate idle.noting a (x, ((), []))).2.2.2,
        q.1.legacy = ((Assignment.find? a.recovered q.1.key).bind Assignment.partition,
          (Assignment.find? a.recovered q.1.key).map Assignment.children)) ∧
    (attach .collecting seen (Context.new dayLong {} none (some interrupted))).2.leaves.map
        (fun ℓ => (ℓ.partition, ℓ.running.agents.map fun g => g.request.recovering)) =
      [(7, [false])] := by
  refine ⟨fun h => ?_, by decide +kernel⟩
  have hrequest := h (Controller.create dayLong.outer ⟨0⟩ 0 1) { recovered := interrupted }
    (by decide) _ (List.mem_singleton_self _)
  cases congrArg Prod.snd hrequest

end Context

end EventContexts
