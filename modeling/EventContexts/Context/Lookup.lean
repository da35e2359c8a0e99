import EventContexts.Context

namespace EventContexts

namespace Node

def selectPartitions (s : Selector) (node : Node (Children [])) : Except Error (List UInt32) :=
  let partitions : Table Running := node.children
  match s with
  | .all => .ok partitions.keys
  | s =>
      match node.controller.select s with
      | .ok ids => .ok (ids.filter partitions.contains)
      | .error e => .error e

def joinChosen (f : UInt32 → Except Error (List UInt32)) :
    List UInt32 → Except Error (List UInt32)
  | [] => .ok []
  | id :: rest =>
      match f id with
      | .error e => .error e
      | .ok ids =>
          match joinChosen f rest with
          | .error e => .error e
          | .ok more => .ok (ids ++ more)

def innerKinds : List String := ["all", "by_id", "category", "hash", "segmented", "filtered"]

def selectStack : (below : List Level) → Node (Children below) → List Selector →
    Except Error (List UInt32)
  | _, _, [] => .ok []
  | _, _, .nested alternatives :: _ => (Selector.nested alternatives).refuse innerKinds
  | [], node, s :: _ => node.selectPartitions s
  | _ :: below, node, s :: rest =>
      let branches : Table (Branch (Children below)) := node.children
      let chosen : Except Error (List UInt32) := match s with
        | .all => .ok branches.keys
        | s => node.controller.select s
      match chosen with
      | .error e => .error e
      | .ok paths =>
          joinChosen (fun path =>
            match branches.get? path with
            | some b => selectStack below b.node rest
            | none => .ok []) paths

end Node

namespace Context

def find? (c : Context) (keys : List Key) : Option Handle :=
  c.root.bind fun root => root.find? _ keys

def pathOf? (c : Context) (partition : UInt32) : Option (List Key) :=
  (c.leaves.find? fun l => l.partition = partition).map fun l => l.path.keys

def stackKind (levels : Nat) : String := "nested selector with " ++ toString levels ++ " levels"

def selectStacks (c : Context) (root : Node (Children c.declaration.inner)) :
    List (List Selector) → Except Error (List UInt32)
  | [] => .ok []
  | stack :: rest =>
      if stack.length ≠ c.depth then
        .error (.wrongSelector (stackKind stack.length) [stackKind c.depth])
      else match root.selectStack _ stack with
        | .error e => .error e
        | .ok ids =>
            match selectStacks c root rest with
            | .error e => .error e
            | .ok more => .ok (ids ++ more)

/-- The live partitions that a selector names. Selectors of keys need a single level. -/
def select (c : Context) (s : Selector) : Except Error IdSet :=
  match s with
  | .all => .ok c.books.ids.inUse
  | .byId ids => .ok (IdSet.ofList (ids.toList.filter c.books.ids.contains))
  | .nested alternatives =>
      match c.root with
      | none => .ok Table.empty
      | some root => (c.selectStacks root alternatives).map IdSet.ofList
  | s =>
      if 1 < c.depth then s.refuse ["all", "by_id", "nested"]
      else match c.root with
        | none => .ok Table.empty
        | some root => (root.selectStack _ [s]).map IdSet.ofList

def rows (c : Context) (id : StatementId) (s : Selector := .all) : Except Error (List Event) :=
  if !c.isAttached id then .error (.statementUnknown id)
  else (c.select s).map fun selected =>
    (c.leaves.filter fun l => selected.contains l.partition).flatMap fun l =>
      (l.running.agents.filter fun a => a.runs id).flatMap Agent.rows

def assignments (c : Context) : List Assignment :=
  match c.root with
  | some root => root.assignments _
  | none => []

def statementsIn (c : Context) (partition : UInt32) : List StatementId :=
  ((c.leaves.filter fun l => l.partition = partition).flatMap fun l =>
    l.running.agents.map fun a => a.statement.id).eraseDups

def restarted (c : Context) (assignments : List Assignment) : Context :=
  Context.new c.declaration c.options c.books.metrics (some assignments)

end Context

end EventContexts
