import EventContexts.Controller.Lifecycle
import EventContexts.Level
/-!
Keyed partitioning: the first event with a new key starts the key's child and is its trigger.
-/

namespace EventContexts

structure KeyedController where
  level : KeyedLevel
  children : Brood := OrderedMap.empty
  nextPath : UInt32 := 0

namespace KeyedController

variable {σ : Type}

def start (life : Lifecycle σ) (key : Key) (trigger : Option Event)
    (recovered : Option Assignment) : Act (KeyedController × σ) Unit := do
  let (c, _) ← Act.get
  let request : Request :=
    { path := c.nextPath
      key
      properties := (Level.keyed c.level).propertiesOf key OrderedMap.empty
      trigger }
  let handle ← Act.second (life.start (request.recovering recovered))
  Act.first <| Act.modify fun c =>
    { c with nextPath := c.nextPath + 1, children := c.children.insert key handle }

/-- The live child that an event goes to. A child that is new starts with the event instead. -/
def route (life : Lifecycle σ) (e : Event) : Act (KeyedController × σ) (List Handle) := do
  let (c, _) ← Act.get
  match c.level.keyFor? e with
  | none => return []
  | some key =>
      match c.children.find? key with
      | some handle => return [handle]
      | none =>
          start life key (some e) none
          return []

def recover (life : Lifecycle σ) (a : Assignment) : Act (KeyedController × σ) Unit := do
  let (c, _) ← Act.get
  match a.key with
  | .keyed _ => if c.children.contains a.key then pure () else start life a.key none (some a)
  | _ => pure ()

def activate (life : Lifecycle σ) (activation : Activation) :
    Act (KeyedController × σ) Unit := do
  Act.forEach (recover life) activation.recovered
  match activation.trigger with
  | some e =>
      let _ ← route life e
      pure ()
  | none => pure ()

end KeyedController

end EventContexts
