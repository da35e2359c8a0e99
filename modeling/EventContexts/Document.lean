import EventContexts.Binary64

namespace EventContexts

inductive Document where
  | null
  | bool (b : Bool)
  | int (n : Int)
  /-- The zero that is written with a minus sign. It is an integer, but counts nothing. -/
  | minusZero
  | float (x : Binary64)
  | text (s : String)
  | seq (items : List Document)
  | map (members : List (String × Document))
  | keyed (members : List (Document × Document))
  /-- Well-formed content that stands for nothing. It does no harm where nobody asks for it. -/
  | unreadable
  deriving Repr, Inhabited

namespace Document

mutual

def isReadable : Document → Bool
  | .seq items => itemsReadable items
  | .map members => membersReadable members
  | .keyed members => keyedReadable members
  | .unreadable => false
  | _ => true

def itemsReadable : List Document → Bool
  | [] => true
  | d :: rest => isReadable d && itemsReadable rest

def membersReadable : List (String × Document) → Bool
  | [] => true
  | (_, d) :: rest => isReadable d && membersReadable rest

def keyedReadable : List (Document × Document) → Bool
  | [] => true
  | (key, d) :: rest => isReadable key && isReadable d && keyedReadable rest

end

def asText? : Document → Option String
  | .text s => some s
  | _ => none

def asBool? : Document → Option Bool
  | .bool b => some b
  | _ => none

def asItems? : Document → Option (List Document)
  | .seq items => some items
  | _ => none

/-- An integer from `low` on and below `high`. Minus zero is one where others may be negative. -/
def asIntIn? (low high : Int) : Document → Option Int
  | .int n => if low ≤ n ∧ n < high then some n else none
  | .minusZero => if low < 0 ∧ 0 < high then some 0 else none
  | _ => none

def asInt64? (d : Document) : Option Int64 :=
  (d.asIntIn? Int64.minValue.toInt (Int64.maxValue.toInt + 1)).map Int64.ofInt

def asUInt32? (d : Document) : Option UInt32 :=
  (d.asIntIn? 0 UInt32.size).map fun n => UInt32.ofNat n.toNat

def asUInt64? (d : Document) : Option UInt64 :=
  (d.asIntIn? 0 UInt64.size).map fun n => UInt64.ofNat n.toNat

def asListOf? {α : Type} (item? : Document → Option α) (d : Document) : Option (List α) := do
  (← d.asItems?).mapM item?

def asOptional? {α : Type} (some? : Document → Option α) : Document → Option (Option α)
  | .null => some none
  | d => (some? d).map some

def ofMembers (members : List (Document × Document)) : Document :=
  match members.mapM fun (key, d) => key.asText?.map fun name => (name, d) with
  | some members => .map members
  | none => .keyed members

/-- The member whose key is picked, if there is one; no two may be. -/
def pick? {α : Type} (picks : α → Bool) (members : List (α × Document)) :
    Option (Option Document) :=
  match members.filter fun m => picks m.1 with
  | [] => some none
  | [(_, d)] => some (some d)
  | _ => none

def member? (name : String) (members : List (String × Document)) : Option (Option Document) :=
  pick? (· == name) members

def fieldName? (names : List String) : Document → Option (Option String)
  | .text s => some (some s)
  | .int n => if 0 ≤ n then some names[n.toNat]? else none
  | _ => none

/-- The fields of a record, each one there or not. A record is written as a map, in which other
names do no harm, or as a list of its leading fields. -/
def fields? (names : List String) : Document → Option (List (Option Document))
  | .map members => names.mapM fun name => member? name members
  | .keyed members => do
      let members ← members.mapM fun (key, d) => (fieldName? names key).map fun name => (name, d)
      names.mapM fun name => pick? (· == some name) members
  | .seq items =>
      if items.length ≤ names.length then
        some (items.map some ++ List.replicate (names.length - items.length) none)
      else none
  | _ => none

def orDefault? {α : Type} (default : α) (read? : Document → Option α) :
    Option Document → Option α
  | none => some default
  | some d => read? d

/-- One of several variants by its name or, in numbered documents, by its place among them. -/
def variant? (numbered : Bool) (names : List String) : Document → Option String
  | .text s => if s ∈ names then some s else none
  | .int n => if numbered ∧ 0 ≤ n then names[n.toNat]? else none
  | _ => none

/-- A variant named by one of a map's members, or at the head of a list, and what is left beside
the name. All of that must be readable, asked for or not. -/
def tagged? (numbered : Bool) (tag : String) (names : List String) :
    Document → Option (String × Document)
  | .map members => do
      let name ← variant? numbered names (← ← member? tag members)
      let rest := members.filter fun m => m.1 ≠ tag
      if membersReadable rest then some (name, .map rest) else none
  | .keyed members => do
      let isTag (key : Document) : Bool := key.asText? == some tag
      let name ← variant? numbered names (← ← pick? isTag members)
      let rest := members.filter fun m => !isTag m.1
      if keyedReadable rest then some (name, .keyed rest) else none
  | .seq (head :: rest) => do
      let name ← variant? numbered names head
      if itemsReadable rest then some (name, .seq rest) else none
  | _ => none

def sole? (names : List String) : Document → Option (String × Document)
  | .map [(name, d)] => if name ∈ names then some (name, d) else none
  | .keyed [(key, d)] => (variant? true names key).map fun name => (name, d)
  | _ => none

def bare? (names : List String) : Document → Option String
  | .map [(name, .null)] => if name ∈ names then some name else none
  | d => variant? false names d

end Document

end EventContexts
