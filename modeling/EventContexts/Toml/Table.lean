import EventContexts.Document
import EventContexts.OrderedMap
/-!
Building the table of a TOML text from its sections. A name is given once: a table may be opened
after its subtables, but not twice, and what dotted keys made is not opened at all.
-/

namespace EventContexts.Toml

inductive Origin where
  | header
  | implied
  | dottedKey
  deriving DecidableEq, Repr

inductive Entry where
  | value (d : Document)
  | table (origin : Origin) (members : List (String × Entry))
  | tables (elements : List (List (String × Entry)))
  deriving Inhabited

abbrev Table := List (String × Entry)

inductive Header where
  | root
  | table (parent : List String) (name : String)
  | element (parent : List String) (name : String)

structure Section where
  header : Header
  entries : List (List String × Document)

namespace Entry

mutual

def toDocument : Entry → Document
  | .value d => d
  | .table _ members => .map (membersToDocuments members)
  | .tables elements => .seq (elementsToDocuments elements)

def membersToDocuments : List (String × Entry) → List (String × Document)
  | [] => []
  | (name, e) :: rest => (name, toDocument e) :: membersToDocuments rest

def elementsToDocuments : List (List (String × Entry)) → List Document
  | [] => []
  | members :: rest => .map (membersToDocuments members) :: elementsToDocuments rest

end

end Entry

namespace Table

/-- Changes the table at the end of a way, making tables on the way. In a list of tables the way
leads through the last one. Dotted keys do not reach into tables that a header opened. -/
def within (dotted : Bool) (change : Origin → Table → Option Table) :
    List String → Origin → Table → Option Table
  | [], origin, t => change origin t
  | name :: way, _, t =>
      match Entries.find? name t with
      | none => do
          let origin := if dotted then Origin.dottedKey else Origin.implied
          let sub ← within dotted change way origin []
          return Entries.insert name (.table origin sub) t
      | some (.value _) => none
      | some (.table origin sub) =>
          if dotted ∧ origin = .header then none
          else do
            let sub ← within dotted change way origin sub
            return Entries.insert name (.table origin sub) t
      | some (.tables elements) =>
          match elements.reverse with
          | [] => none
          | last :: before => do
              let last ← within dotted change way .header last
              return Entries.insert name (.tables (before.reverse ++ [last])) t

def assign (name : String) (d : Document) (t : Table) : Option Table :=
  if (Entries.find? name t).isSome then none else some (t ++ [(name, .value d)])

def put (t : Table) : List String × Document → Option Table
  | ([], _) => none
  | ([name], d) => assign name d t
  | (name :: way, d) =>
      let last := way.getLast?.getD name
      let change (origin : Origin) (t : Table) : Option Table :=
        if origin = .dottedKey then assign last d t else none
      within true change (name :: way.dropLast) .header t

def putAll (t : Table) (entries : List (List String × Document)) : Option Table :=
  entries.foldlM put t

def openTable (name : String) (entries : List (List String × Document)) (t : Table) :
    Option Table :=
  match Entries.find? name t with
  | none => do return t ++ [(name, .table .header (← putAll [] entries))]
  | some (.table .implied sub) => do
      return t.filter (·.1 ≠ name) ++ [(name, .table .header (← putAll sub entries))]
  | _ => none

def openElement (name : String) (entries : List (List String × Document)) (t : Table) :
    Option Table :=
  match Entries.find? name t with
  | none => do return t ++ [(name, .tables [← putAll [] entries])]
  | some (.tables elements) => do
      return Entries.insert name (.tables (elements ++ [← putAll [] entries])) t
  | _ => none

def addSection (t : Table) (s : Section) : Option Table :=
  match s.header with
  | .root => putAll t s.entries
  | .table parent name => within false (fun _ t => openTable name s.entries t) parent .header t
  | .element parent name => within false (fun _ t => openElement name s.entries t) parent .header t

end Table

def ofSections? (sections : List Section) : Option Document := do
  let t ← sections.foldlM Table.addSection []
  return (Entry.table .header t).toDocument

def ofEntries? (entries : List (List String × Document)) : Option Document := do
  return (Entry.table .header (← Table.putAll [] entries)).toDocument

end EventContexts.Toml
