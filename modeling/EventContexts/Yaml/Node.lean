import EventContexts.Yaml.Spelling
/-!
The nodes of a YAML text, and the documents they stand for. What a plain scalar stands for depends
on what is asked of it: where text is due it is that text, and elsewhere its spelling decides.
-/

namespace EventContexts.Yaml

inductive Node where
  | plain (s : String)
  | quoted (s : String)
  | seq (items : List Node)
  | map (members : List (Node × Node))
  deriving Repr, Inhabited

namespace Node

def text? : Node → Option String
  | .plain s => some s
  | .quoted s => some s
  | _ => none

mutual

/-- What a node stands for by its spelling. Containers that stand too deep one in another stand for
nothing; the first argument counts how many may. -/
def toDocument : (room : Nat) → Node → Document
  | _, .plain s => Spelling.toDocument s
  | _, .quoted s => .text s
  | 0, _ => .unreadable
  | room + 1, .seq items => .seq (itemsToDocuments room items)
  | room + 1, .map members => Document.ofMembers (membersToDocuments room members)

def itemsToDocuments : (room : Nat) → List Node → List Document
  | _, [] => []
  | room, n :: rest => toDocument room n :: itemsToDocuments room rest

def membersToDocuments : (room : Nat) → List (Node × Node) → List (Document × Document)
  | _, [] => []
  | room, (key, n) :: rest =>
      (toDocument room key, toDocument room n) :: membersToDocuments room rest

end

end Node

inductive Due where
  | text
  | listOf (item : Due)
  /-- A map whose names are taken as they are spelled. -/
  | record (fields : List (String × Due))
  | anything

namespace Due

def field (fields : List (String × Due)) (name : String) : Due :=
  (fields.lookup name).getD .anything

end Due

namespace Node

mutual

/-- What a node stands for where something is due, in containers of which the first argument counts
how many may stand one in another. Nothing written is an empty list or record. -/
def settle : (room : Nat) → Node → Due → Document
  | room, n, .anything => n.toDocument room
  | _, .plain s, .text => .text s
  | _, .quoted s, .text => .text s
  | _, .plain "", .listOf _ => .seq []
  | _, .plain "", .record _ => .map []
  | room + 1, .seq items, .listOf item => .seq (settleItems room items item)
  | room + 1, .map members, .record fields =>
      match settleMembers? room members fields with
      | some members => .map members
      | none => .unreadable
  | _, _, _ => .unreadable

def settleItems : (room : Nat) → List Node → Due → List Document
  | _, [], _ => []
  | room, n :: rest, item => settle room n item :: settleItems room rest item

def settleMembers? : (room : Nat) → List (Node × Node) → List (String × Due) →
    Option (List (String × Document))
  | _, [], _ => some []
  | room, (key, n) :: rest, fields => do
      let name ← key.text?
      return (name, settle room n (Due.field fields name)) :: (← settleMembers? room rest fields)

end

end Node

end EventContexts.Yaml
