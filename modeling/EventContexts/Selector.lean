import EventContexts.Error
import EventContexts.PartitionIds
import EventContexts.Value.Inspect

namespace EventContexts

inductive Selector where
  | all
  | byId (ids : IdSet)
  /-- One selector per nesting level in each stack. -/
  | nested (alternatives : List (List Selector))
  | category (labels : List String)
  | hash (buckets : List Int64)
  | segmented (keys : List (List Value))
  | filtered (accepts : Key → UInt32 → Bool)

namespace Selector

def kindName : Selector → String
  | .all => "all"
  | .byId _ => "by_id"
  | .nested _ => "nested"
  | .category _ => "category"
  | .hash _ => "hash"
  | .segmented _ => "segmented"
  | .filtered _ => "filtered"

open Text

mutual

def inspect : Selector → String
  | .all => "All"
  | .byId ids => "ById(" ++ listed "\x7b" "\x7d" (ids.toList.map toString) ++ ")"
  | .nested alternatives => "Nested(" ++ listed "[" "]" (inspectStacks alternatives) ++ ")"
  | .category labels => "Category(" ++ listed "[" "]" (labels.map quoted) ++ ")"
  | .hash buckets =>
      "Hash(" ++ listed "[" "]" (buckets.map fun b => toString b.toInt) ++ ")"
  | .segmented keys =>
      "Segmented(" ++
        listed "[" "]" (keys.map fun k => listed "[" "]" (Value.inspectItems k)) ++ ")"
  | .filtered _ => "Filtered(..)"

def inspectStacks : List (List Selector) → List String
  | [] => []
  | stack :: rest => listed "[" "]" (inspectStack stack) :: inspectStacks rest

def inspectStack : List Selector → List String
  | [] => []
  | s :: rest => s.inspect :: inspectStack rest

end

def keys : Selector → List Key
  | .category labels => labels.map .category
  | .hash buckets => buckets.map .hash
  | .segmented keys => keys.map .keyed
  | _ => []

def refuse {α : Type} (s : Selector) (expected : List String) : Except Error α :=
  .error (.wrongSelector s.kindName expected)

/-- The identifiers of the children that a selector chooses. Beside the general kinds a controller
understands the one kind that lists its own keys, if it has one. -/
def choose (s : Selector) (ownKind : Option String) (children : OrderedMap Key Handle) :
    Except Error (List UInt32) :=
  match s with
  | .all => .ok (children.values.map Handle.id)
  | .byId ids => .ok ((children.values.map Handle.id).filter ids.contains)
  | .filtered accepts =>
      .ok ((children.entries.filter fun (k, h) => accepts k h.id).map fun (_, h) => h.id)
  | s =>
      if some s.kindName = ownKind then
        .ok (s.keys.filterMap fun k => (children.find? k).map Handle.id)
      else s.refuse (["all", "by_id", "filtered"] ++ ownKind.toList)

end Selector

end EventContexts
