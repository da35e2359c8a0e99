import EventContexts.Controller.Lifecycle
import EventContexts.Level
/-!
A fixed time range: one child while the clock is inside, and none ever after it has left.
-/

namespace EventContexts

structure TemporalController where
  level : TemporalLevel
  child : Option (Key × Handle) := none
  finished : Bool := false
  recovered : Option UInt32 := none

namespace TemporalController

variable {σ : Type}

def finish (life : Lifecycle σ) : Act (TemporalController × σ) Unit := do
  let (c, _) ← Act.get
  Act.first <| Act.modify fun c => { c with finished := true, child := none }
  match c.child with
  | some (_, handle) => Act.second (life.stop handle)
  | none => pure ()

def sync (life : Lifecycle σ) (now : Int64) (trigger : Option Event) :
    Act (TemporalController × σ) Unit := do
  let (c, _) ← Act.get
  if c.level.stop ≤ now then finish life
  else if c.level.start ≤ now ∧ c.child.isNone ∧ c.finished = false then
    Act.first <| Act.modify fun c => { c with recovered := none }
    let key := c.level.key
    let handle ← Act.second <| life.start
      { path := 0
        key
        properties := (Level.temporal c.level).propertiesOf key OrderedMap.empty
        trigger
        assigned := c.recovered }
    Act.first <| Act.modify fun c => { c with child := some (key, handle) }
  else pure ()

def activate (life : Lifecycle σ) (activation : Activation) :
    Act (TemporalController × σ) Unit := do
  Act.first <| Act.modify fun c =>
    { c with recovered :=
        (Assignment.find? activation.recovered c.level.key).bind Assignment.partition }
  sync life activation.now activation.trigger

end TemporalController

end EventContexts
