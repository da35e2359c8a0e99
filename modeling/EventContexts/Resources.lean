import EventContexts.Table

namespace EventContexts

abbrev Resources (α : Type) := Table α

namespace Resources

variable {α : Type}

def put (r : Resources α) (partition : UInt32) (resource : α) : Option α × Resources α :=
  (r.get? partition, r.insert partition resource)

def take (r : Resources α) (partition : UInt32) : Option α × Resources α :=
  (r.get? partition, r.erase partition)

def modify (r : Resources α) (partition : UInt32) (f : α → α) : Option α × Resources α :=
  match r.get? partition with
  | some resource => (some (f resource), r.insert partition (f resource))
  | none => (none, r)

end Resources

end EventContexts
