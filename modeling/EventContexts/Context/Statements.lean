import EventContexts.Context
/-!
Attaching statements to a context and detaching them. The tree lives from the first attachment to
the last detachment.
-/

namespace EventContexts

namespace Setting

def startIn (env : Setting) (s : Statement) (l : Leaf) :
    List Agent × Books → Except Error Running × (List Agent × Books) := fun (started, b) =>
  match env.startAgent l.path l.partition false s b with
  | (.ok agent, b) =>
      (.ok { l.running with agents := l.running.agents ++ [agent] }, (started ++ [agent], b))
  | (.error e, b) => (.error e, (started, b))

def startEverywhere (env : Setting) (s : Statement) (below : List Level)
    (root : Node (Children below)) (b : Books) : Except Error (Node (Children below)) × Books :=
  match root.traverseLeaves (env.startIn s) below [] ([], b) with
  | (.ok root, (_, b)) => (.ok root, b)
  | (.error e, (started, b)) => (.error e, (env.stopAgents none true started b).2)

def stopIn (env : Setting) (id : StatementId) (l : Leaf) :
    Except Error Unit × Books → Except Empty Running × (Except Error Unit × Books) :=
  fun (outcome, b) =>
    let (r, b) := env.stopAgents none true (l.running.agents.filter fun a => a.runs id) b
    let outcome := match outcome with
      | .error e => .error e
      | .ok () => r
    (.ok { l.running with agents := l.running.agents.filter fun a => !a.runs id }, (outcome, b))

def stopEverywhere (env : Setting) (id : StatementId) (below : List Level)
    (root : Node (Children below)) (b : Books) :
    Except Error Unit × (Node (Children below) × Books) :=
  match root.traverseLeaves (env.stopIn id) below [] (.ok (), b) with
  | (.ok root, (outcome, b)) => (outcome, (root, b))
  | (.error e, _) => e.elim

end Setting

namespace Context

/-- Wakes the root controller up. It recreates the partitions of the stored assignments, which are
kept for another attempt if it fails. -/
def awaken (runtime : Runtime) : Act Context Unit := fun c =>
  let env := c.setting runtime
  let controller := Controller.create c.declaration.outer ⟨c.books.nextController⟩ 0 1
  let books := { c.books with nextController := c.books.nextController + 1 }
  let node : Node (Children c.declaration.inner) := { controller, children := Children.empty _ }
  let activation : Activation := { recovered := c.recovery.getD [], now := c.now }
  match env.drive _ [] (fun life => Controller.activate life activation) (node, books) with
  | (.ok (), (root, books)) => (.ok (), { c with root := some root, recovery := none, books })
  | (.error e, (root, books)) => (.error e, { c with root := some root, books })

/-- Ends all partitions and forgets the tree. Identifiers are numbered from the start again. -/
def teardown (runtime : Runtime) (statementLevel : Bool) : Act Context Unit := fun c =>
  let (outcome, books) := match c.root with
    | some root => (c.setting runtime).closeAll none statementLevel _ root c.books
    | none => (.ok (), c.books)
  let books := { books with ids := books.ids.clear }
  (outcome, { c with root := none, books := books.updateGauge })

/-- Attaches a statement that fits under every level. The first statement brings the tree to
life; a later one gets an instance in each live partition. On failure nothing stays attached. -/
def attach (runtime : Runtime) (s : Statement) : Act Context Unit := fun c =>
  if c.isAttached s.id then (.error (.statementAttached s.id), c)
  else match Declaration.checkAll (fun l => Level.validate l s) c.declaration.levels with
    | .error e => (.error e, c)
    | .ok () =>
        let attached := { c with statements := c.statements ++ [s] }
        match c.root with
        | some root =>
            match (attached.setting runtime).startEverywhere s _ root c.books with
            | (.ok root, books) => (.ok (), { attached with root := some root, books })
            | (.error e, books) => (.error e, { c with books })
        | none =>
            match awaken runtime attached with
            | (.ok (), c) => (.ok (), c)
            | (.error e, c) => (.error e, (teardown runtime false (c.withoutStatement s.id)).2)

def detach (runtime : Runtime) (id : StatementId) : Act Context Unit := fun c =>
  if !c.isAttached id then (.error (.statementUnknown id), c)
  else if c.statements.length = 1 then teardown runtime true (c.withoutStatement id)
  else
    let detached := c.withoutStatement id
    match c.root with
    | some root =>
        let (outcome, (root, books)) :=
          (detached.setting runtime).stopEverywhere id _ root c.books
        (outcome, { detached with root := some root, books })
    | none => (.ok (), detached)

end Context

end EventContexts
