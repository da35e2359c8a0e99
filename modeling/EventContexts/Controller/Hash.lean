import EventContexts.Controller.Lifecycle
import EventContexts.Level
/-!
Hash partitioning: one child per bucket, started at the activation or by the bucket's first
event. Ranges confine a controller to some of the buckets.
-/

namespace EventContexts

structure HashController where
  level : HashLevel
  children : Brood := OrderedMap.empty
  /-- Without ranges every bucket is maintained. -/
  ranges : Option (List BucketRange) := none

namespace HashController

variable {σ : Type}

def maintains (c : HashController) (bucket : Int64) : Bool :=
  match c.ranges with
  | none => true
  | some ranges => ranges.any fun r => r.contains bucket

def pathOf (bucket : Int64) : UInt32 := bucket.toUInt64.toUInt32

def start (life : Lifecycle σ) (bucket : Int64) (trigger : Option Event)
    (recovered : Option Assignment) : Act (HashController × σ) Unit := do
  let request : Request := { path := pathOf bucket, key := .hash bucket, trigger }
  let handle ← Act.second (life.start (request.recovering recovered))
  Act.first <| Act.modify fun c => { c with children := c.children.insert (.hash bucket) handle }

def preallocate (life : Lifecycle σ) (activation : Activation) :
    (count : Nat) → (first : Nat) → Act (HashController × σ) Unit
  | 0, _ => pure ()
  | count + 1, first => do
      let (c, _) ← Act.get
      let bucket := Int64.ofNat first
      if c.maintains bucket && !c.children.contains (.hash bucket) then
        start life bucket
          (activation.trigger.filter fun e => c.level.bucketOf? e = some bucket)
          (Assignment.find? activation.recovered (.hash bucket))
      else pure ()
      preallocate life activation count (first + 1)

def preallocateAll (life : Lifecycle σ) (activation : Activation) :
    Act (HashController × σ) Unit := do
  let (c, _) ← Act.get
  preallocate life activation c.level.granularity.toNatClampNeg 0

def route (life : Lifecycle σ) (e : Event) : Act (HashController × σ) (List Handle) := do
  let (c, _) ← Act.get
  match c.level.bucketOf? e with
  | none => return []
  | some bucket =>
      if c.maintains bucket then
        match c.children.find? (.hash bucket) with
        | some handle => return [handle]
        | none =>
            start life bucket (some e) none
            return []
      else return []

def recover (life : Lifecycle σ) (a : Assignment) : Act (HashController × σ) Unit := do
  let (c, _) ← Act.get
  match a.key with
  | .hash bucket =>
      if c.maintains bucket && !c.children.contains a.key then
        start life bucket none (some a)
      else pure ()
  | _ => pure ()

def recoverAll (life : Lifecycle σ) (activation : Activation) :
    Act (HashController × σ) Unit := do
  Act.forEach (recover life) activation.recovered
  match activation.trigger with
  | some e =>
      let _ ← route life e
      pure ()
  | none => pure ()

def activate (life : Lifecycle σ) (activation : Activation) :
    Act (HashController × σ) Unit := do
  let (c, _) ← Act.get
  if c.level.preallocate then preallocateAll life activation else recoverAll life activation

def outside (c : HashController) : List (Key × Handle) :=
  c.children.entries.filter fun (k, _) =>
    match k with
    | .hash bucket => !c.maintains bucket
    | _ => false

def endChild (life : Lifecycle σ) (child : Key × Handle) : Act (HashController × σ) Unit := do
  Act.first <| Act.modify fun c => { c with children := c.children.erase child.1 }
  Act.second (life.stop child.2)

/-- Confines the controller to the ranges. Failures to end a child are told after the buckets
that came in are started. -/
def restrict (life : Lifecycle σ) (ranges : List BucketRange) :
    Act (HashController × σ) Unit := do
  Act.first <| Act.modify fun c => { c with ranges := some ranges }
  let (c, _) ← Act.get
  let ended ← Act.attempt (Act.forAll (endChild life) c.outside)
  if c.level.preallocate then preallocateAll life {} else pure ()
  Act.ofExcept ended

end HashController

end EventContexts
