import EventContexts.Filter
import EventContexts.Key
import EventContexts.Text.Quoted

namespace EventContexts

structure Statement where
  id : StatementId
  name : String
  filters : List HeldFilter
  deriving DecidableEq

structure View where
  rows : List Event := []
  detached : Bool := false
  deriving DecidableEq

namespace View

def process (v : View) (e : Event) : View :=
  if v.detached then v else { v with rows := v.rows ++ [e] }

def detach (v : View) : View := { v with detached := true }

end View

structure StartRequest where
  statement : Statement
  partition : UInt32
  recovering : Bool
  builtin : Event
  addendum : Addendum
  deriving DecidableEq

structure Agent where
  request : StartRequest
  view : View := {}
  stopFailure : Option String := none
  termination : Option Props := none
  deriving DecidableEq

namespace Agent

def statement (a : Agent) : Statement := a.request.statement

def partition (a : Agent) : UInt32 := a.request.partition

def addendum (a : Agent) : Addendum := a.request.addendum

def runs (a : Agent) (id : StatementId) : Bool := a.statement.id == id

def rows (a : Agent) : List Event := a.view.rows

def accepts (a : Agent) (e : Event) : Bool :=
  a.statement.filters.any fun f => a.addendum.accepts f e

def evaluate (a : Agent) (e : Event) : Agent :=
  if a.accepts e then { a with view := a.view.process e } else a

def withTermination (a : Agent) : Option Props → Agent
  | some props => { a with termination := some props }
  | none => a

def summary (a : Agent) : String :=
  "AgentInstance \x7b statement: " ++ Text.quoted a.statement.name ++
    ", partition_id: " ++ toString a.partition ++
    ", filter_addendum: " ++ Text.quoted a.addendum.text ++ " \x7d"

/-- Detaches the view; the stop then fails as the instance was told to. -/
def stop (a : Agent) : Except String Unit × View :=
  (match a.stopFailure with
    | some reason => .error reason
    | none => .ok (), a.view.detach)

end Agent

inductive Action where
  | started (request : StartRequest)
  | refused (request : StartRequest)
  | processed (statement : Statement) (partition : UInt32) (event : Event)
  | stopped (agent : Agent) (statementLevel : Bool)
  deriving DecidableEq

abbrev Trace := List Action

/-- The engine that runs instances. It may refuse a start and fail a stop at will, knowing all
that happened before. A start that succeeds fixes how the instance's own stop will end. -/
structure Runtime where
  start : Trace → StartRequest → Except String (Option String)
  stop : Trace → Agent → Bool → Except String Unit := fun _ agent _ => agent.stop.1

def Runtime.collecting : Runtime := { start := fun _ _ => .ok none }

end EventContexts
