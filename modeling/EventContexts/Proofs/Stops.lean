import EventContexts.Proofs.Settlement

namespace EventContexts

/-- What fails when instances are stopped in order. The engine knows all that happened before. -/
def Runtime.failures (runtime : Runtime) (statementLevel : Bool) : Trace → List Agent → List Error
  | _, [] => []
  | trace, a :: rest =>
      let later := failures runtime statementLevel (trace ++ [.stopped a statementLevel]) rest
      match runtime.stop trace a statementLevel with
      | .ok () => later
      | .error reason => .stopFailed a.statement.name a.partition reason :: later

def Error.first : List Error → Except Error Unit
  | [] => .ok ()
  | e :: _ => .error e

structure Books.Stops (runtime : Runtime) (statementLevel : Bool) (agents : List Agent) (b : Books)
    (o : Except Error Unit × Books) : Prop where
  outcome : o.1 = Error.first (runtime.failures statementLevel b.trace agents)
  trace : o.2.trace = b.trace ++ agents.map fun a => .stopped a statementLevel
  controllers : o.2.nextController = b.nextController
  generations : o.2.nextGeneration = b.nextGeneration

variable {runtime : Runtime} {statementLevel : Bool} {as bs : List Agent} {trace : Trace}
  {termination : Option Props} {env : Setting} {b : Books} {o o' : Except Error Unit × Books}

theorem Runtime.failures_append : runtime.failures statementLevel trace (as ++ bs) =
    runtime.failures statementLevel trace as ++
      runtime.failures statementLevel (trace ++ as.map fun a => .stopped a statementLevel) bs := by
  induction as generalizing trace with
  | nil => simp [failures]
  | cons a as ih =>
      simp only [List.cons_append, failures, ih]
      split <;> simp

theorem Error.first_append {es es' : List Error} : first (es ++ es') =
    match first es with
      | .error e => .error e
      | .ok () => first es' := by
  cases es <;> rfl

namespace Books.Stops

theorem nil (runtime : Runtime) (statementLevel : Bool) (b : Books) :
    Stops runtime statementLevel [] b (.ok (), b) :=
  ⟨rfl, (List.append_nil _).symm, rfl, rfl⟩

theorem append (h : Stops runtime statementLevel as b o)
    (h' : Stops runtime statementLevel bs o.2 o') : Stops runtime statementLevel (as ++ bs) b
      (match o.1 with
        | .error e => .error e
        | .ok () => o'.1, o'.2) where
  outcome := by
    rw [Runtime.failures_append, Error.first_append, ← h.outcome, ← h.trace, ← h'.outcome]
  trace := by
    rw [h'.trace, h.trace, List.map_append, List.append_assoc]
  controllers := h'.controllers.trans h.controllers
  generations := h'.generations.trans h.generations

theorem congr {b' : Books} (h : Stops runtime statementLevel as b o) (htrace : b'.trace = o.2.trace)
    (hcontrollers : b'.nextController = o.2.nextController)
    (hgenerations : b'.nextGeneration = o.2.nextGeneration) :
    Stops runtime statementLevel as b (o.1, b') :=
  ⟨h.outcome, htrace.trans h.trace, hcontrollers.trans h.controllers,
    hgenerations.trans h.generations⟩

theorem forAll {α : Type} {f : α → Act Books Unit} {g : α → List Agent}
    (hf : ∀ x b, Stops runtime statementLevel (g x) b (f x b)) (xs : List α) (b : Books) :
    Stops runtime statementLevel (xs.flatMap g) b (Act.forAll f xs b) := by
  induction xs generalizing b with
  | nil => exact nil runtime statementLevel b
  | cons x xs ih => exact (hf x b).append (ih _)

theorem stopAgent (env : Setting) (termination : Option Props) (a : Agent) (b : Books) :
    Stops env.runtime statementLevel [a.withTermination termination] b
      (env.stopAgent termination statementLevel a b) := by
  rw [Setting.stopAgent]
  cases hstop : env.runtime.stop b.trace (a.withTermination termination) statementLevel with
  | ok u => exact ⟨by simp [Runtime.failures, hstop, Error.first], rfl, rfl, rfl⟩
  | error reason => exact ⟨by simp [Runtime.failures, hstop, Error.first], rfl, rfl, rfl⟩

theorem stopAgents (env : Setting) (termination : Option Props) (agents : List Agent) (b : Books) :
    Stops env.runtime statementLevel (agents.map fun a => a.withTermination termination) b
      (env.stopAgents termination statementLevel agents b) := by
  rw [List.map_eq_flatMap]
  exact forAll (stopAgent env termination) agents b

theorem closePartition (env : Setting) (termination : Option Props) (leaf : UInt32 × List Agent)
    (b : Books) : Stops env.runtime statementLevel
      (leaf.2.map fun a => a.withTermination termination) b
      (env.closePartition termination statementLevel leaf b) :=
  (stopAgents env termination leaf.2 b).congr rfl rfl rfl

theorem closeAll (env : Setting) (termination : Option Props) {below : List Level}
    (node : Node (Children below)) (path : Path) (b : Books) :
    Stops env.runtime statementLevel ((node.leaves below path).flatMap fun ℓ =>
        ℓ.running.agents.map fun a => a.withTermination termination) b
      (env.closeAll termination statementLevel below node b) := by
  let staff := node.children.staff
  let agents (leaf : UInt32 × List Agent) : List Agent :=
    leaf.2.map fun a => a.withTermination termination
  have hclose : Stops env.runtime statementLevel (staff.flatMap agents) b
      (Act.forAll (env.closePartition termination statementLevel) staff b) :=
    forAll (closePartition env termination) staff b
  have hagents : staff.flatMap agents = (node.leaves below path).flatMap fun ℓ =>
      ℓ.running.agents.map fun a => a.withTermination termination := by
    simp only [staff, node.staff_leaves path, List.flatMap_map, agents]
  have hstaff : staff = (node.leaves below []).map fun ℓ => (ℓ.partition, ℓ.running.agents) :=
    node.staff_leaves []
  rw [hagents, hstaff] at hclose
  exact hclose.congr rfl rfl rfl

end Books.Stops

end EventContexts
