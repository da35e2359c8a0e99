import EventContexts.Act
import EventContexts.Event
/-!
What controllers ask for. A controller decides when children start and end; whoever runs it
carries that out over a state the controller does not see.
-/

namespace EventContexts

structure Request where
  path : UInt32
  key : Key
  properties : Props := OrderedMap.empty
  trigger : Option Event := none
  /-- Tagged events that are shown among the child's properties. -/
  pattern : Option (OrderedMap String Event) := none
  /-- A partition identifier to use instead of a fresh one. -/
  assigned : Option UInt32 := none
  /-- The children to recreate, if this child is recreated after a restart. -/
  recovered : Option (List Assignment) := none

namespace Request

def recovering (r : Request) : Option Assignment → Request
  | some a => { r with assigned := a.partition, recovered := some a.children }
  | none => r

end Request

structure Lifecycle (σ : Type) where
  start : Request → Act σ Handle
  stop : Handle → Act σ Unit

structure Activation where
  trigger : Option Event := none
  recovered : List Assignment := []
  now : Int64 := 0

abbrev Brood := OrderedMap Key Handle

/-- Half-open ranges of bucket numbers. -/
structure BucketRange where
  low : Int64
  high : Int64
  deriving DecidableEq, Repr

def BucketRange.contains (r : BucketRange) (bucket : Int64) : Bool :=
  decide (r.low ≤ bucket ∧ bucket < r.high)

end EventContexts
