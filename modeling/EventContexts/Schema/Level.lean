import EventContexts.Level
import EventContexts.Schema.Event
/-!
Levels as documents. Conditions and kinds are named by a member beside their own; a numbered
document may give the place of a name in the order of declaration instead.
-/

namespace EventContexts

def namesToDocument (names : List String) : Document := .seq (names.map .text)

namespace LevelKind

def written : LevelKind → String
  | .keyed => "keyed"
  | .category => "category"
  | .hash => "hash"
  | .initiatedTerminated => "initiated_terminated"
  | .temporal => "temporal"

def all : List LevelKind := [.keyed, .category, .hash, .initiatedTerminated, .temporal]

def names : List String := all.map written

def ofName? (name : String) : Option LevelKind := all.find? fun k => k.written == name

def toDocument (k : LevelKind) : Document := .text k.written

def ofDocument? (d : Document) : Option LevelKind := (d.bare? names).bind ofName?

end LevelKind

namespace KeyedItem

def toDocument (i : KeyedItem) : Document :=
  .map [("event_type", .text i.eventType), ("properties", namesToDocument i.properties)]

def ofDocument? (d : Document) : Option KeyedItem := do
  match ← d.fields? ["event_type", "properties"] with
  | [some eventType, some properties] =>
      return ⟨← eventType.asText?, ← properties.asListOf? Document.asText?⟩
  | _ => none

end KeyedItem

namespace CategoryItem

def toDocument (i : CategoryItem) : Document :=
  .map [("label", .text i.label), ("constraints", Constraint.listToDocument i.constraints)]

def ofDocument? (d : Document) : Option CategoryItem := do
  match ← d.fields? ["label", "constraints"] with
  | [some label, constraints] =>
      return ⟨← label.asText?, ← Constraint.listOfField? constraints⟩
  | _ => none

end CategoryItem

namespace EventPattern

def members (p : EventPattern) : List (String × Document) :=
  [("type", .text "event"), ("event_type", .text p.eventType),
    ("constraints", Constraint.listToDocument p.constraints)]

def ofDocument? (d : Document) : Option EventPattern := do
  match ← d.fields? ["event_type", "constraints"] with
  | [some eventType, constraints] =>
      return ⟨← eventType.asText?, ← Constraint.listOfField? constraints⟩
  | _ => none

end EventPattern

namespace StartCondition

def toDocument : StartCondition → Document
  | .now => .map [("type", .text "now")]
  | .event p => .map p.members

def ofDocument? (numbered : Bool) (d : Document) : Option StartCondition := do
  match ← d.tagged? numbered "type" ["now", "event"] with
  | ("now", .seq (_ :: _)) => none
  | ("now", _) => return .now
  | (_, content) => (EventPattern.ofDocument? content).map .event

end StartCondition

namespace EndCondition

def toDocument : EndCondition → Document
  | .event p => .map p.members
  | .after duration => .map [("type", .text "after"), ("duration_ms", .int duration.toInt)]

def ofDocument? (numbered : Bool) (d : Document) : Option EndCondition := do
  match ← d.tagged? numbered "type" ["event", "after"] with
  | ("after", content) =>
      match ← content.fields? ["duration_ms"] with
      | [some duration] => return .after (← duration.asInt64?)
      | _ => none
  | (_, content) => (EventPattern.ofDocument? content).map .event

end EndCondition

namespace Level

def ownMembers : Level → List (String × Document)
  | .keyed l => [("items", .seq (l.items.map KeyedItem.toDocument))]
  | .category l =>
      [("event_type", .text l.eventType), ("items", .seq (l.items.map CategoryItem.toDocument))]
  | .hash l =>
      [("event_type", .text l.eventType), ("property", .text l.property),
        ("granularity", .int l.granularity.toInt), ("preallocate", .bool l.preallocate)]
  | .episode l =>
      [("start", l.start.toDocument), ("end", l.stop.toDocument),
        ("overlapping", .bool l.overlapping)]
  | .temporal l => [("start_ms", .int l.start.toInt), ("end_ms", .int l.stop.toInt)]

def toDocument (l : Level) : Document :=
  .map (("name", .text l.name) :: ("kind", .text l.kind.written) :: l.ownMembers)

def ofContent? (numbered : Bool) (name : String) (content : Document) :
    LevelKind → Option Level
  | .keyed => do
      match ← content.fields? ["items"] with
      | [some items] => return .keyed { name, items := ← items.asListOf? KeyedItem.ofDocument? }
      | _ => none
  | .category => do
      match ← content.fields? ["event_type", "items"] with
      | [some eventType, some items] =>
          return .category
            { name, eventType := ← eventType.asText?
              items := ← items.asListOf? CategoryItem.ofDocument? }
      | _ => none
  | .hash => do
      match ← content.fields? ["event_type", "property", "granularity", "preallocate"] with
      | [some eventType, some property, some granularity, preallocate] =>
          return .hash
            { name, eventType := ← eventType.asText?, property := ← property.asText?
              granularity := ← granularity.asInt64?
              preallocate := ← Document.orDefault? false Document.asBool? preallocate }
      | _ => none
  | .initiatedTerminated => do
      match ← content.fields? ["start", "end", "overlapping"] with
      | [some start, some stop, overlapping] =>
          return .episode
            { name, start := ← StartCondition.ofDocument? numbered start
              stop := ← EndCondition.ofDocument? numbered stop
              overlapping := ← Document.orDefault? false Document.asBool? overlapping }
      | _ => none
  | .temporal => do
      match ← content.fields? ["start_ms", "end_ms"] with
      | [some start, some stop] =>
          return .temporal { name, start := ← start.asInt64?, stop := ← stop.asInt64? }
      | _ => none

def ofDocument? (numbered : Bool) : Document → Option Level
  | .map members => do
      let name ← (← ← Document.member? "name" members).asText?
      let rest := members.filter fun m => m.1 ≠ "name"
      let (kind, content) ← (Document.map rest).tagged? numbered "kind" LevelKind.names
      ofContent? numbered name content (← LevelKind.ofName? kind)
  | _ => none

end Level

end EventContexts
