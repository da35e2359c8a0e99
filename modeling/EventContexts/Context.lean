import EventContexts.Context.Branches
import EventContexts.Declaration

namespace EventContexts

structure Options where
  reuseIds : Bool := false
  limit : Option Nat := none
  deriving DecidableEq, Repr

structure Context where
  declaration : Declaration
  options : Options := {}
  statements : List Statement := []
  /-- The tree is there while statements are attached. -/
  root : Option (Node (Children declaration.inner)) := none
  /-- The partitions to recreate when the tree next comes to life. -/
  recovery : Option (List Assignment) := none
  now : Int64 := 0
  books : Books

namespace Context

def new (declaration : Declaration) (options : Options := {}) (metrics : Option Metrics := none)
    (recovery : Option (List Assignment) := none) : Context :=
  { declaration, options, recovery
    books := { ids := PartitionIds.new options.reuseIds, metrics } }

def descriptor (c : Context) : Descriptor :=
  Descriptor.ofLevels c.declaration.name c.declaration.levels

def depth (c : Context) : Nat := c.declaration.depth

def setting (c : Context) (runtime : Runtime) : Setting :=
  { descriptor := c.descriptor
    limit := c.options.limit
    statements := c.statements
    now := c.now
    runtime }

def isActive (c : Context) : Bool := c.root.isSome

def rootId? (c : Context) : Option ControllerId := c.root.map fun root => root.controller.id

def isAttached (c : Context) (id : StatementId) : Bool := c.statements.any fun s => s.id == id

def withoutStatement (c : Context) (id : StatementId) : Context :=
  { c with statements := c.statements.filter fun s => s.id ≠ id }

def leaves (c : Context) : List Leaf :=
  match c.root with
  | some root => root.leaves _ []
  | none => []

def controllers (c : Context) : List Controller :=
  match c.root with
  | some root => root.controllers _
  | none => []

def allocatedIds (c : Context) : List UInt32 := c.books.ids.ids

def isConsistent (c : Context) : Bool :=
  (match c.root with
    | some root => root.isConsistent _ 1
    | none => true) &&
  (IdSet.ofList (c.leaves.map Leaf.partition)).toList == c.allocatedIds

def summary (c : Context) : String :=
  "NestedContextManager \x7b name: " ++ Text.quoted c.declaration.name ++
    ", depth: " ++ toString c.depth ++
    ", statements: " ++ toString c.statements.length ++
    ", controllers: " ++ toString c.controllers.length ++
    ", partitions: " ++ toString c.books.ids.count ++ " \x7d"

end Context

end EventContexts
