import EventContexts.Controller.Lifecycle
import EventContexts.Level
/-!
Category partitioning: every label has its child from the activation on.
-/

namespace EventContexts

structure CategoryController where
  level : CategoryLevel
  children : Brood := OrderedMap.empty

namespace CategoryController

variable {σ : Type}

def startItem (life : Lifecycle σ) (activation : Activation) (item : CategoryItem × Nat) :
    Act (CategoryController × σ) Unit := do
  let (i, index) := item
  let (c, _) ← Act.get
  let key := Key.category i.label
  if c.children.contains key then pure ()
  else
    let request : Request :=
      { path := UInt32.ofNat index
        key
        properties := (Level.category c.level).propertiesOf key OrderedMap.empty
        trigger := activation.trigger.filter (c.level.admits i) }
    let handle ←
      Act.second (life.start (request.recovering (Assignment.find? activation.recovered key)))
    Act.first <| Act.modify fun c => { c with children := c.children.insert key handle }

def activate (life : Lifecycle σ) (activation : Activation) :
    Act (CategoryController × σ) Unit := do
  let (c, _) ← Act.get
  Act.forEach (startItem life activation) c.level.items.zipIdx

def targets (c : CategoryController) (e : Event) : List Handle :=
  (c.level.items.filter fun i => c.level.admits i e).filterMap fun i =>
    c.children.find? (.category i.label)

end CategoryController

end EventContexts
