import EventContexts.Table
/-!
Identifiers of live partitions. Fresh numbers are handed out in order; identifiers may also come
in from outside, and released ones may be handed out again before fresh ones.
-/

namespace EventContexts

abbrev IdSet := Table Unit

namespace IdSet

def toList (s : IdSet) : List UInt32 := s.keys

def add (s : IdSet) (id : UInt32) : IdSet := s.insert id ()

def addAll (s : IdSet) (ids : List UInt32) : IdSet := ids.foldl add s

def ofList (ids : List UInt32) : IdSet := addAll Table.empty ids

end IdSet

structure PartitionIds where
  next : UInt32 := 0
  inUse : IdSet := Table.empty
  released : List UInt32 := []
  reuse : Bool
  deriving Inhabited

namespace PartitionIds

def new (reuse : Bool) : PartitionIds := { reuse }

def contains (p : PartitionIds) (id : UInt32) : Bool := p.inUse.contains id

def ids (p : PartitionIds) : List UInt32 := p.inUse.toList

def count (p : PartitionIds) : Nat := p.inUse.size

/-- The first number from `id` on that is not in use, counting around at the end of the range.
Among one more candidates than there are identifiers in use, one is free. -/
def firstFree (inUse : IdSet) : Nat → UInt32 → UInt32
  | 0, id => id
  | fuel + 1, id => if inUse.contains id then firstFree inUse fuel (id + 1) else id

def skipTaken (inUse : IdSet) : List UInt32 → List UInt32
  | [] => []
  | id :: rest => if inUse.contains id then skipTaken inUse rest else id :: rest

def allocate (p : PartitionIds) : UInt32 × PartitionIds :=
  match if p.reuse then skipTaken p.inUse p.released else [] with
  | id :: rest => (id, { p with inUse := p.inUse.add id, released := rest })
  | [] =>
      let id := firstFree p.inUse p.inUse.size p.next
      let released := if p.reuse then [] else p.released
      (id, { p with next := id + 1, inUse := p.inUse.add id, released })

/-- Registers an identifier from outside; false if it is already in use. -/
def add (p : PartitionIds) (id : UInt32) : Bool × PartitionIds :=
  if p.contains id then (false, p) else (true, { p with inUse := p.inUse.add id })

def remove (p : PartitionIds) (id : UInt32) : Bool × PartitionIds :=
  if p.contains id then
    (true, { p with
      inUse := p.inUse.erase id
      released := if p.reuse then p.released ++ [id] else p.released })
  else (false, p)

def clear (p : PartitionIds) : PartitionIds := { reuse := p.reuse }

end PartitionIds

end EventContexts
