import EventContexts.Filter
import EventContexts.Schema.Value

namespace EventContexts

namespace Test

def toDocument : Test → Document
  | .equal v => .map [("equal", v.toDocument)]
  | .oneOf values => .map [("in", .seq (values.map Value.toDocument))]
  | .range low high => .map [("range", .map [("low", low.toDocument), ("high", high.toDocument)])]
  | .hashBucket granularity bucket =>
      .map [("hash_bucket",
        .map [("granularity", .int granularity.toInt), ("bucket", .int bucket.toInt)])]

def names : List String := ["equal", "in", "range", "hash_bucket"]

def ofDocument? (d : Document) : Option Test := do
  match ← d.sole? names with
  | ("equal", d) => return .equal (← Value.ofDocument? d)
  | ("in", d) => return .oneOf (← d.asListOf? Value.ofDocument?)
  | ("range", d) =>
      match ← d.fields? ["low", "high"] with
      | [some low, some high] => return .range (← Value.ofDocument? low) (← Value.ofDocument? high)
      | _ => none
  | ("hash_bucket", d) =>
      match ← d.fields? ["granularity", "bucket"] with
      | [some granularity, some bucket] =>
          return .hashBucket (← granularity.asInt64?) (← bucket.asInt64?)
      | _ => none
  | _ => none

end Test

namespace Constraint

def toDocument (c : Constraint) : Document :=
  .map [("property", .text c.property), ("op", c.test.toDocument)]

def ofDocument? (d : Document) : Option Constraint := do
  match ← d.fields? ["property", "op"] with
  | [some property, some test] => return ⟨← property.asText?, ← Test.ofDocument? test⟩
  | _ => none

def listToDocument (constraints : List Constraint) : Document :=
  .seq (constraints.map toDocument)

def listOfField? : Option Document → Option (List Constraint) :=
  Document.orDefault? [] (Document.asListOf? ofDocument?)

end Constraint

namespace Filter

def toDocument (f : Filter) : Document :=
  .map [("event_type", .text f.eventType), ("constraints", Constraint.listToDocument f.constraints)]

def ofDocument? (d : Document) : Option Filter := do
  match ← d.fields? ["event_type", "constraints"] with
  | [some eventType, constraints] =>
      return ⟨← eventType.asText?, ← Constraint.listOfField? constraints⟩
  | _ => none

end Filter

namespace Event

def toDocument (e : Event) : Document :=
  .map
    [("event_type", .text e.type), ("timestamp", .text e.time.text),
      ("data", Props.toDocument e.data)]

/-- An event without a time happens now. -/
def ofDocument? (now : Instant) (d : Document) : Option Event := do
  match ← d.fields? ["event_type", "timestamp", "data"] with
  | [some type, time, some data] =>
      let time ← Document.orDefault? now (fun t => t.asText?.bind Instant.read?) time
      return { type := ← type.asText?, time, data := ← Props.ofDocument? data }
  | _ => none

end Event

end EventContexts
