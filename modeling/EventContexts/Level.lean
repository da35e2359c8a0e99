import EventContexts.Statement
import EventContexts.Error
import EventContexts.PropertyType

namespace EventContexts

structure KeyedItem where
  eventType : String
  properties : List String
  deriving DecidableEq, Repr

structure CategoryItem where
  label : String
  constraints : List Constraint := []
  deriving DecidableEq

structure EventPattern where
  eventType : String
  constraints : List Constraint := []
  deriving DecidableEq

def EventPattern.accepts (p : EventPattern) (e : Event) : Bool :=
  e.type == p.eventType && p.constraints.all fun c => c.accepts e

inductive StartCondition where
  /-- At once, and again as soon as an episode ends. -/
  | now
  | event (pattern : EventPattern)
  deriving DecidableEq

def StartCondition.accepts : StartCondition → Event → Bool
  | .now, _ => false
  | .event pattern, e => pattern.accepts e

inductive EndCondition where
  | event (pattern : EventPattern)
  | after (duration : Int64)
  deriving DecidableEq

def EndCondition.accepts : EndCondition → Event → Bool
  | .event pattern, e => pattern.accepts e
  | .after _, _ => false

structure KeyedLevel where
  name : String
  items : List KeyedItem
  deriving DecidableEq

structure CategoryLevel where
  name : String
  eventType : String
  items : List CategoryItem
  deriving DecidableEq

structure HashLevel where
  name : String
  eventType : String
  property : String
  granularity : Int64
  preallocate : Bool := false
  deriving DecidableEq

structure EpisodeLevel where
  name : String
  start : StartCondition
  stop : EndCondition
  overlapping : Bool := false
  deriving DecidableEq

structure TemporalLevel where
  name : String
  start : Int64
  stop : Int64
  deriving DecidableEq

inductive Level where
  | keyed (level : KeyedLevel)
  | category (level : CategoryLevel)
  | hash (level : HashLevel)
  | episode (level : EpisodeLevel)
  | temporal (level : TemporalLevel)
  deriving DecidableEq

inductive LevelKind where
  | keyed
  | category
  | hash
  | initiatedTerminated
  | temporal
  deriving DecidableEq, Repr

def LevelKind.text : LevelKind → String
  | .keyed => "keyed"
  | .category => "category"
  | .hash => "hash"
  | .initiatedTerminated => "initiated-terminated"
  | .temporal => "temporal"

def saturatingAdd (a b : Int64) : Int64 := Binary64.clampInt64 (a.toInt + b.toInt)

def initiatorTag : String := "initiator"

structure Binding where
  filter : HeldFilter
  properties : List String := []
  deriving DecidableEq

namespace KeyedLevel

def itemFor? (l : KeyedLevel) (eventType : String) : Option KeyedItem :=
  l.items.find? fun i => i.eventType == eventType

def arity (l : KeyedLevel) : Nat := (l.items.head?.map fun i => i.properties.length).getD 0

def flaw? (l : KeyedLevel) : Option Flaw :=
  match l.items with
  | [] => some (.noEventTypes l.name)
  | first :: _ =>
      let arity := first.properties.length
      if arity = 0 then some (.noKeyProperties l.name first.eventType)
      else (l.items.find? fun i => i.properties.length ≠ arity).map fun other =>
        .unevenKeys l.name first.eventType arity other.eventType other.properties.length

def bindings (l : KeyedLevel) (s : Statement) : List Binding :=
  s.filters.filterMap fun f => (l.itemFor? f.eventType).map fun i => ⟨f, i.properties⟩

def keyOf (i : KeyedItem) (e : Event) : List Value := i.properties.map e.field

def keyFor? (l : KeyedLevel) (e : Event) : Option Key :=
  (l.itemFor? e.type).map fun i => .keyed (keyOf i e)

end KeyedLevel

namespace CategoryLevel

def repeatedLabel? : List String → List CategoryItem → Option String
  | _, [] => none
  | seen, i :: rest =>
      if i.label ∈ seen then some i.label else repeatedLabel? (i.label :: seen) rest

def flaw? (l : CategoryLevel) : Option Flaw :=
  if l.items.isEmpty then some (.noCategories l.name)
  else (repeatedLabel? [] l.items).map (.repeatedLabel l.name)

def item? (l : CategoryLevel) (label : String) : Option CategoryItem :=
  l.items.find? fun i => i.label == label

def admits (l : CategoryLevel) (i : CategoryItem) (e : Event) : Bool :=
  e.type == l.eventType && i.constraints.all fun c => c.accepts e

end CategoryLevel

namespace HashLevel

def flaw? (l : HashLevel) : Option Flaw :=
  if l.granularity ≤ 0 ∨ 4294967295 < l.granularity then
    some (.granularity l.name l.granularity)
  else none

def bucketOf? (l : HashLevel) (e : Event) : Option Int64 :=
  if e.type = l.eventType then some ((e.field l.property).bucket l.granularity) else none

end HashLevel

namespace EpisodeLevel

def flaw? (l : EpisodeLevel) : Option Flaw :=
  match l.stop with
  | .after duration =>
      if duration ≤ 0 then some (.duration l.name duration)
      else if l.overlapping ∧ l.start = .now then some (.overlappingNow l.name)
      else none
  | .event _ =>
      if l.overlapping ∧ l.start = .now then some (.overlappingNow l.name) else none

def endTime (l : EpisodeLevel) (start : Int64) : Value :=
  match l.stop with
  | .after duration => .timestamp (saturatingAdd start duration)
  | .event _ => .null

end EpisodeLevel

namespace TemporalLevel

def flaw? (l : TemporalLevel) : Option Flaw :=
  if l.stop ≤ l.start then some (.emptyRange l.name l.start l.stop) else none

def key (l : TemporalLevel) : Key := .temporal l.start l.stop

end TemporalLevel

namespace Level

def name : Level → String
  | .keyed l => l.name
  | .category l => l.name
  | .hash l => l.name
  | .episode l => l.name
  | .temporal l => l.name

def kind : Level → LevelKind
  | .keyed _ => .keyed
  | .category _ => .category
  | .hash _ => .hash
  | .episode _ => .initiatedTerminated
  | .temporal _ => .temporal

def flaw? : Level → Option Flaw
  | .keyed l => l.flaw?
  | .category l => l.flaw?
  | .hash l => l.flaw?
  | .episode l => l.flaw?
  | .temporal l => l.flaw?

def check (l : Level) : Except Error Unit :=
  match l.flaw? with
  | some why => .error (.flawed why)
  | none => .ok ()

def bindings (l : Level) (s : Statement) : List Binding :=
  match l with
  | .keyed l => l.bindings s
  | .category l => (s.filters.filter fun f => f.eventType == l.eventType).map fun f => ⟨f, []⟩
  | .hash l =>
      (s.filters.filter fun f => f.eventType == l.eventType).map fun f => ⟨f, [l.property]⟩
  | .episode _ => []
  | .temporal _ => []

/-- Why a statement that feeds the level through none of its filters does not fit; levels that
partition time alone take every statement. -/
def mismatch? : Level → Option Mismatch
  | .keyed l => some (.noListedType (l.items.map fun i => i.eventType))
  | .category l => some (.noCategoryType l.eventType)
  | .hash l => some (.noHashType l.eventType)
  | .episode _ => none
  | .temporal _ => none

def validate (l : Level) (s : Statement) : Except Error Unit :=
  match l.mismatch? with
  | some why =>
      if (l.bindings s).isEmpty then .error (.incompatible l.name s.name why) else .ok ()
  | none => .ok ()

def contributions (l : Level) (s : Statement) (key : Key) :
    List (HeldFilter × List Constraint) :=
  match l, key with
  | .keyed _, .keyed values =>
      (l.bindings s).map fun b =>
        (b.filter, (b.properties.zip values).map fun (p, v) => Constraint.equal p v)
  | .category c, .category label =>
      match c.item? label with
      | some item => (l.bindings s).map fun b => (b.filter, item.constraints)
      | none => []
  | .hash h, .hash bucket =>
      (l.bindings s).map fun b =>
        (b.filter, [⟨h.property, .hashBucket h.granularity bucket⟩])
  | _, _ => []

def declaredProperties : Level → List (String × PropertyType)
  | .keyed l => (List.range l.arity).map fun i => ("key" ++ toString (i + 1), .any)
  | .category _ => [("label", .str)]
  | .hash _ => []
  | .episode l =>
      [("startTime", .timestamp), ("endTime", .timestamp)] ++
        match l.start with
        | .now => []
        | .event _ => [(initiatorTag, .any)]
  | .temporal _ => [("startTime", .timestamp), ("endTime", .timestamp)]

def propertiesOf (l : Level) (key : Key) (captured : Props) : Props :=
  match l, key with
  | .keyed _, .keyed values =>
      OrderedMap.ofPairs (values.mapIdx fun i v => ("key" ++ toString (i + 1), v))
  | .category _, .category label => OrderedMap.ofPairs [("label", .str label)]
  | .episode l, key =>
      let times : Props := match key with
        | .episode start _ =>
            OrderedMap.ofPairs [("startTime", .timestamp start), ("endTime", l.endTime start)]
        | _ => OrderedMap.empty
      match captured.find? initiatorTag with
      | some initiator => times.insert initiatorTag initiator
      | none => times
  | .temporal l, _ =>
      OrderedMap.ofPairs [("startTime", .timestamp l.start), ("endTime", .timestamp l.stop)]
  | _, _ => OrderedMap.empty

end Level

end EventContexts
