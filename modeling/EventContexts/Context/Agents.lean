import EventContexts.Tree
import EventContexts.Descriptor
import EventContexts.Metrics

namespace EventContexts

structure Setting where
  descriptor : Descriptor
  limit : Option Nat
  statements : List Statement
  now : Int64
  runtime : Runtime

/-- What all nodes of a context share. The two counters are never set back. -/
structure Books where
  ids : PartitionIds
  nextController : Nat := 0
  nextGeneration : Nat := 0
  trace : Trace := []
  metrics : Option Metrics := none

namespace Books

def record (a : Action) (b : Books) : Books := { b with trace := b.trace ++ [a] }

def count (f : Metrics → Metrics) (b : Books) : Books := { b with metrics := b.metrics.map f }

def updateGauge (b : Books) : Books := b.count (Metrics.setActive b.ids.count)

def release (partition : UInt32) (b : Books) : Books :=
  { b with ids := (b.ids.remove partition).2 }

end Books

namespace Path

def addendum (p : Path) (s : Statement) : Addendum :=
  p.foldl (fun a step => a.addAll (step.level.contributions s step.key)) OrderedMap.empty

def properties (p : Path) : List Props :=
  p.map fun step => step.level.propertiesOf step.key step.properties

end Path

namespace Setting

def startRequest (env : Setting) (path : Path) (partition : UInt32) (recovering : Bool)
    (statement : Statement) : StartRequest :=
  { statement, partition, recovering
    builtin := env.descriptor.builtin partition path.properties
    addendum := path.addendum statement }

def startAgent (env : Setting) (path : Path) (partition : UInt32) (recovering : Bool)
    (statement : Statement) : Act Books Agent := fun b =>
  let request := env.startRequest path partition recovering statement
  match env.runtime.start b.trace request with
  | .ok stopFailure =>
      (.ok { request, stopFailure }, (b.record (.started request)).count Metrics.countStarted)
  | .error reason =>
      (.error (.startFailed statement.name partition reason), b.record (.refused request))

def stopAgent (env : Setting) (termination : Option Props) (statementLevel : Bool)
    (agent : Agent) : Act Books Unit := fun b =>
  let agent := agent.withTermination termination
  let outcome := env.runtime.stop b.trace agent statementLevel
  let b := b.record (.stopped agent statementLevel)
  match outcome with
  | .ok () => (.ok (), b.count Metrics.countStopped)
  | .error reason =>
      (.error (.stopFailed agent.statement.name agent.partition reason),
        b.count Metrics.countStopFailure)

def stopAgents (env : Setting) (termination : Option Props) (statementLevel : Bool)
    (agents : List Agent) : Act Books Unit :=
  Act.forAll (env.stopAgent termination statementLevel) agents

/-- Starts the statements in order. When one start fails, those before it are stopped again. -/
def startAgents (env : Setting) (path : Path) (partition : UInt32) (recovering : Bool) :
    List Statement → (started : List Agent) → Act Books (List Agent)
  | [], started => pure started
  | s :: rest, started => fun b =>
      match env.startAgent path partition recovering s b with
      | (.ok agent, b) => startAgents env path partition recovering rest (started ++ [agent]) b
      | (.error e, b) => (.error e, (env.stopAgents none false started b).2)

end Setting

def Agent.offer (e : Event) (a : Agent) (b : Books) : Agent × Books :=
  if a.accepts e then (a.evaluate e, b.record (.processed a.statement a.partition e))
  else (a, b)

def offerAll (e : Event) : List Agent → Books → List Agent × Books
  | [], b => ([], b)
  | a :: rest, b =>
      let (a, b) := a.offer e b
      let (rest, b) := offerAll e rest b
      (a :: rest, b)

end EventContexts
