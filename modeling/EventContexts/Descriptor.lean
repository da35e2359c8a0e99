import EventContexts.Level

namespace EventContexts

structure LevelDescriptor where
  name : String
  kind : LevelKind
  properties : List (String × PropertyType)

structure Descriptor where
  name : String
  levels : List LevelDescriptor

namespace Descriptor

def ofLevels (name : String) (levels : List Level) : Descriptor :=
  { name
    levels := levels.map fun l =>
      { name := l.name, kind := l.kind, properties := l.declaredProperties } }

def isNested (d : Descriptor) : Bool := decide (1 < d.levels.length)

def eventType (d : Descriptor) : String := "ContextProperties_" ++ d.name

/-- The name and the partition, then each level's properties: under the level's name if there
are several levels. -/
def propertyType (d : Descriptor) : PropertyType :=
  .record <| [("name", .str), ("id", .int)] ++
    if d.isNested then d.levels.map fun l => (l.name, .record l.properties)
    else (d.levels.head?.map LevelDescriptor.properties).getD []

def builtin (d : Descriptor) (partition : UInt32) (levels : List Props) : Event :=
  let fields : List (String × Value) :=
    if d.isNested then (d.levels.zip levels).map fun (l, props) => (l.name, Value.ofProps props)
    else levels.flatMap OrderedMap.entries
  { type := d.eventType
    data := OrderedMap.ofPairs ([("name", .str d.name), ("id", toValue partition)] ++ fields) }

end Descriptor

end EventContexts
