import EventContexts.Event
import EventContexts.Value.Hash
import EventContexts.Value.Text

namespace EventContexts

inductive Test where
  | equal (v : Value)
  | oneOf (values : List Value)
  | range (low high : Value)
  | hashBucket (granularity bucket : Int64)
  deriving DecidableEq

structure Constraint where
  property : String
  test : Test
  deriving DecidableEq

namespace Test

/-- Numbers of either kind compare by magnitude. A range is open at its upper end, and null lies
in none. -/
def holds (t : Test) (v : Value) : Bool :=
  match t with
  | .equal expected => v.numericCmp expected == .eq
  | .oneOf values => values.any fun expected => v.numericCmp expected == .eq
  | .range low high => !v.isNull && v.numericCmp low != .lt && v.numericCmp high == .lt
  | .hashBucket granularity bucket => v.bucket granularity == bucket

end Test

namespace Constraint

def accepts (c : Constraint) (e : Event) : Bool := c.test.holds (e.field c.property)

def text (c : Constraint) : String :=
  match c.test with
  | .equal v => c.property ++ " = " ++ v.text
  | .oneOf values =>
      c.property ++ " in (" ++ String.intercalate ", " (values.map Value.text) ++ ")"
  | .range low high => c.property ++ " in [" ++ low.text ++ ":" ++ high.text ++ ")"
  | .hashBucket granularity bucket =>
      "hash(" ++ c.property ++ ") % " ++ toString granularity.toInt ++ " = " ++
        toString bucket.toInt

def equal (property : String) (v : Value) : Constraint := ⟨property, .equal v⟩

end Constraint

structure Filter where
  eventType : String
  constraints : List Constraint := []
  deriving DecidableEq

def Filter.accepts (f : Filter) (e : Event) : Bool :=
  e.type == f.eventType && f.constraints.all fun c => c.accepts e

/-- One filter as a statement holds it. Two filters that ask for the same events are still told
apart by their identity. -/
structure HeldFilter where
  identity : Nat
  filter : Filter
  deriving DecidableEq

def HeldFilter.eventType (f : HeldFilter) : String := f.filter.eventType

abbrev Addendum := OrderedMap HeldFilter (List Constraint)

namespace Addendum

def constraintsFor (a : Addendum) (f : HeldFilter) : List Constraint := (a.find? f).getD []

/-- Appends to what the filter already has; an empty list still lists the filter. -/
def add (a : Addendum) (f : HeldFilter) (constraints : List Constraint) : Addendum :=
  a.insert f (a.constraintsFor f ++ constraints)

def addAll (a : Addendum) (contributions : List (HeldFilter × List Constraint)) : Addendum :=
  contributions.foldl (fun a c => a.add c.1 c.2) a

def merge (a b : Addendum) : Addendum := a.addAll b.entries

def accepts (a : Addendum) (f : HeldFilter) (e : Event) : Bool :=
  f.filter.accepts e && (a.constraintsFor f).all fun c => c.accepts e

def text (a : Addendum) : String :=
  String.intercalate "; " <| a.entries.map fun (f, constraints) =>
    f.eventType ++ "(" ++ String.intercalate ", " (constraints.map Constraint.text) ++ ")"

theorem constraintsFor_add {a : Addendum} {f g : HeldFilter} {cs : List Constraint} :
    (a.add f cs).constraintsFor g =
      if f = g then a.constraintsFor g ++ cs else a.constraintsFor g := by
  simp only [constraintsFor, add, OrderedMap.find?_insert]
  split
  · next h => subst h; rfl
  · rfl

end Addendum

end EventContexts
