import EventContexts.Controller.Keyed
import EventContexts.Controller.Category
import EventContexts.Controller.Hash
import EventContexts.Controller.Episode
import EventContexts.Controller.Temporal
import EventContexts.Selector

namespace EventContexts

inductive Scheme where
  | keyed (c : KeyedController)
  | category (c : CategoryController)
  | hash (c : HashController)
  | episode (c : EpisodeController)
  | temporal (c : TemporalController)

structure Controller where
  id : ControllerId
  path : UInt32
  /-- How deep it stands, the root at 1. -/
  nesting : Nat
  scheme : Scheme

namespace Scheme

def ofLevel : Level → Scheme
  | .keyed level => .keyed { level }
  | .category level => .category { level }
  | .hash level => .hash { level }
  | .episode level => .episode { level }
  | .temporal level => .temporal { level }

def level : Scheme → Level
  | .keyed c => .keyed c.level
  | .category c => .category c.level
  | .hash c => .hash c.level
  | .episode c => .episode c.level
  | .temporal c => .temporal c.level

theorem level_ofLevel (l : Level) : (ofLevel l).level = l := by
  cases l <;> rfl

def children : Scheme → Brood
  | .keyed c => c.children
  | .category c => c.children
  | .hash c => c.children
  | .episode c => c.children
  | .temporal c =>
      match c.child with
      | some (key, handle) => OrderedMap.ofPairs [(key, handle)]
      | none => OrderedMap.empty

def ownSelector : Scheme → Option String
  | .keyed _ => some "segmented"
  | .category _ => some "category"
  | .hash _ => some "hash"
  | .episode _ => none
  | .temporal _ => none

def without (h : Handle) (children : Brood) : Brood := children.filter fun _ g => g ≠ h

/-- Forgets a child that somebody else ended. A time range is over with its child. -/
def forget (h : Handle) : Scheme → Scheme
  | .keyed c => .keyed { c with children := without h c.children }
  | .category c => .category { c with children := without h c.children }
  | .hash c => .hash { c with children := without h c.children }
  | .episode c => .episode { c with children := without h c.children }
  | .temporal c =>
      match c.child with
      | some (_, g) =>
          if g = h then .temporal { c with child := none, finished := true } else .temporal c
      | none => .temporal c

def forgetAll : Scheme → Scheme
  | .keyed c => .keyed { c with children := OrderedMap.empty }
  | .category c => .category { c with children := OrderedMap.empty }
  | .hash c => .hash { c with children := OrderedMap.empty }
  | .episode c => .episode { c with children := OrderedMap.empty }
  | .temporal c => .temporal { c with child := none }

variable {σ μ α : Type}

def lift (wrap : μ → Scheme) (x : Act (μ × σ) α) (c : μ) : Act (Scheme × σ) α := fun (_, s) =>
  let (r, (c, s)) := x (c, s)
  (r, (wrap c, s))

def activate (life : Lifecycle σ) (activation : Activation) : Act (Scheme × σ) Unit := do
  let (scheme, _) ← Act.get
  match scheme with
  | .keyed c => lift .keyed (KeyedController.activate life activation) c
  | .category c => lift .category (CategoryController.activate life activation) c
  | .hash c => lift .hash (HashController.activate life activation) c
  | .episode c => lift .episode (EpisodeController.activate life activation) c
  | .temporal c => lift .temporal (TemporalController.activate life activation) c

def route (life : Lifecycle σ) (e : Event) : Act (Scheme × σ) (List Handle) := do
  let (scheme, _) ← Act.get
  match scheme with
  | .keyed c => lift .keyed (KeyedController.route life e) c
  | .category c => return c.targets e
  | .hash c => lift .hash (HashController.route life e) c
  | .episode c => lift .episode (EpisodeController.route life e) c
  | .temporal c => return (c.child.map Prod.snd).toList

def tick (life : Lifecycle σ) (now : Int64) : Act (Scheme × σ) Unit := do
  let (scheme, _) ← Act.get
  match scheme with
  | .keyed _ | .category _ | .hash _ => pure ()
  | .episode c => lift .episode (EpisodeController.tick life now) c
  | .temporal c => lift .temporal (TemporalController.sync life now none) c

def restrict (life : Lifecycle σ) (ranges : List BucketRange) : Act (Scheme × σ) Unit := do
  let (scheme, _) ← Act.get
  match scheme with
  | .hash c => lift .hash (HashController.restrict life ranges) c
  | s =>
      let what := s!"{s.level.kind.text} context '{s.level.name}' does not support "
      Act.fail (.unsupported (what ++ "partition ranges"))

end Scheme

namespace Controller

def create (level : Level) (id : ControllerId) (path : UInt32) (nesting : Nat) : Controller :=
  { id, path, nesting, scheme := Scheme.ofLevel level }

def level (c : Controller) : Level := c.scheme.level

def children (c : Controller) : Brood := c.scheme.children

def select (c : Controller) (s : Selector) : Except Error (List UInt32) :=
  s.choose c.scheme.ownSelector c.children

def forget (h : Handle) (c : Controller) : Controller := { c with scheme := c.scheme.forget h }

def forgetAll (c : Controller) : Controller := { c with scheme := c.scheme.forgetAll }

variable {σ α : Type}

def run (x : Act (Scheme × σ) α) : Act (Controller × σ) α := fun (c, s) =>
  let (r, (scheme, s)) := x (c.scheme, s)
  (r, ({ c with scheme }, s))

def activate (life : Lifecycle σ) (activation : Activation) : Act (Controller × σ) Unit :=
  run (Scheme.activate life activation)

def route (life : Lifecycle σ) (e : Event) : Act (Controller × σ) (List Handle) :=
  run (Scheme.route life e)

def tick (life : Lifecycle σ) (now : Int64) : Act (Controller × σ) Unit :=
  run (Scheme.tick life now)

def restrict (life : Lifecycle σ) (ranges : List BucketRange) : Act (Controller × σ) Unit :=
  run (Scheme.restrict life ranges)

end Controller

end EventContexts
