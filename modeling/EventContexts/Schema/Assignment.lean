import EventContexts.Key
import EventContexts.Schema.Value

namespace EventContexts

namespace Key

def toDocument : Key → Document
  | .keyed values => .map [("keyed", .seq (values.map Value.toDocument))]
  | .category label => .map [("category", .text label)]
  | .hash bucket => .map [("hash", .int bucket.toInt)]
  | .episode start number =>
      .map [("episode",
        .map [("start_ms", .int start.toInt), ("seq", .int number.toNat)])]
  | .temporal start stop =>
      .map [("temporal", .map [("start_ms", .int start.toInt), ("end_ms", .int stop.toInt)])]

def ofDocument? : Document → Option Key
  | .map [("keyed", d)] => (d.asListOf? Value.ofDocument?).map .keyed
  | .map [("category", d)] => d.asText?.map .category
  | .map [("hash", d)] => d.asInt64?.map .hash
  | .map [("episode", d)] => do
      match ← d.fields? ["start_ms", "seq"] with
      | [some start, some number] => return .episode (← start.asInt64?) (← number.asUInt64?)
      | _ => none
  | .map [("temporal", d)] => do
      match ← d.fields? ["start_ms", "end_ms"] with
      | [some start, some stop] => return .temporal (← start.asInt64?) (← stop.asInt64?)
      | _ => none
  | _ => none

end Key

namespace Assignment

mutual

def toDocument : Assignment → Document
  | ⟨key, partition, children⟩ =>
      .map
        [("key", key.toDocument),
          ("partition_id", partition.elim .null fun id => .int id.toNat),
          ("children", .map [("partitions", .seq (itemsToDocuments children))])]

def itemsToDocuments : List Assignment → List Document
  | [] => []
  | a :: rest => toDocument a :: itemsToDocuments rest

end

def listToDocument (assignments : List Assignment) : Document :=
  .map [("partitions", .seq (itemsToDocuments assignments))]

def ofParts? (key : Document) (partition : Option Document) :
    Option (List Assignment → Assignment) := do
  let key ← Key.ofDocument? key
  let partition ← Document.orDefault? none (Document.asOptional? Document.asUInt32?) partition
  return fun children => { key, partition, children }

/-- The only reading among several, or the default if there is none. -/
def only? {α : Type} (default : Option α) : List (Option α) → Option α
  | [] => default
  | [reading] => reading
  | _ => none

mutual

def ofDocument? : Document → Option Assignment
  | .map members => do
      match ← (Document.map members).fields? ["key", "partition_id"] with
      | [some key, partition] =>
          return (← ofParts? key partition) (← only? (some []) (childrenAmong members))
      | _ => none
  | .seq [key] => do return (← ofParts? key none) []
  | .seq [key, partition] => do return (← ofParts? key (some partition)) []
  | .seq [key, partition, children] => do
      return (← ofParts? key (some partition)) (← listOfDocument? children)
  | _ => none

def childrenAmong : List (String × Document) → List (Option (List Assignment))
  | [] => []
  | (name, d) :: rest =>
      if name = "children" then listOfDocument? d :: childrenAmong rest else childrenAmong rest

def listOfDocument? : Document → Option (List Assignment)
  | .map members => only? none (partitionsAmong members)
  | .seq [.seq items] => itemsOf? items
  | _ => none

def partitionsAmong : List (String × Document) → List (Option (List Assignment))
  | [] => []
  | (name, d) :: rest =>
      if name = "partitions" then
        (match d with
          | .seq items => itemsOf? items
          | _ => none) :: partitionsAmong rest
      else partitionsAmong rest

def itemsOf? : List Document → Option (List Assignment)
  | [] => some []
  | d :: rest => do
      let a ← ofDocument? d
      return a :: (← itemsOf? rest)

end

end Assignment

end EventContexts
