
namespace EventContexts

namespace Entries

variable {κ α : Type} [DecidableEq κ]

def find? (k : κ) : List (κ × α) → Option α
  | [] => none
  | (l, a) :: rest => if l = k then some a else find? k rest

def insert (k : κ) (a : α) : List (κ × α) → List (κ × α)
  | [] => [(k, a)]
  | (l, b) :: rest => if l = k then (l, a) :: rest else (l, b) :: insert k a rest

theorem mem_keys_insert {k x : κ} {a : α} {es : List (κ × α)} :
    x ∈ (insert k a es).map Prod.fst ↔ x = k ∨ x ∈ es.map Prod.fst := by
  induction es with
  | nil => simp [insert]
  | cons e rest ih =>
      obtain ⟨l, b⟩ := e
      simp only [insert]
      split
      · next h => subst h; simp
      · simp only [List.map_cons, List.mem_cons, ih]
        exact or_left_comm

theorem nodup_insert {k : κ} {a : α} {es : List (κ × α)} (h : (es.map Prod.fst).Nodup) :
    ((insert k a es).map Prod.fst).Nodup := by
  induction es with
  | nil => simp [insert]
  | cons e rest ih =>
      obtain ⟨l, b⟩ := e
      obtain ⟨hl, hrest⟩ := List.nodup_cons.1 h
      simp only [insert]
      split
      · exact h
      · next hne =>
          refine List.nodup_cons.2 ⟨fun hx => ?_, ih hrest⟩
          rcases mem_keys_insert.1 hx with rfl | hx
          · exact hne rfl
          · exact hl hx

theorem find?_insert {k x : κ} {a : α} {es : List (κ × α)} :
    find? x (insert k a es) = if k = x then some a else find? x es := by
  induction es with
  | nil => simp [insert, find?]
  | cons e rest ih =>
      obtain ⟨l, b⟩ := e
      simp only [insert]
      split
      · next h => subst h; by_cases hx : l = x <;> simp [find?, hx]
      · next hne =>
          by_cases hx : l = x
          · subst hx; simp [find?, Ne.symm hne]
          · simp [find?, hx, ih]

/-- Writes pairs one by one: a repeated key keeps its first place and its last value. -/
def ofPairs (pairs : List (κ × α)) : List (κ × α) :=
  pairs.foldl (fun es p => insert p.1 p.2 es) []

theorem nodup_foldl_insert (pairs : List (κ × α)) {es : List (κ × α)}
    (h : (es.map Prod.fst).Nodup) :
    ((pairs.foldl (fun es p => insert p.1 p.2 es) es).map Prod.fst).Nodup := by
  induction pairs generalizing es with
  | nil => exact h
  | cons p rest ih => exact ih (nodup_insert h)

theorem nodup_ofPairs (pairs : List (κ × α)) : ((ofPairs pairs).map Prod.fst).Nodup :=
  nodup_foldl_insert pairs List.nodup_nil

end Entries

/-- One entry per key, in the order of the first writes. -/
structure OrderedMap (κ α : Type) where
  entries : List (κ × α)
  nodup : (entries.map Prod.fst).Nodup
  deriving DecidableEq

namespace OrderedMap

variable {κ α : Type}

def empty : OrderedMap κ α := ⟨[], List.nodup_nil⟩

instance : Inhabited (OrderedMap κ α) := ⟨empty⟩

def keys (m : OrderedMap κ α) : List κ := m.entries.map Prod.fst

def values (m : OrderedMap κ α) : List α := m.entries.map Prod.snd

def size (m : OrderedMap κ α) : Nat := m.entries.length

def isEmpty (m : OrderedMap κ α) : Bool := m.entries.isEmpty

def filter (m : OrderedMap κ α) (p : κ → α → Bool) : OrderedMap κ α :=
  ⟨m.entries.filter fun e => p e.1 e.2, m.nodup.sublist (List.filter_sublist.map Prod.fst)⟩

variable [DecidableEq κ]

def find? (m : OrderedMap κ α) (k : κ) : Option α := Entries.find? k m.entries

def contains (m : OrderedMap κ α) (k : κ) : Bool := (m.find? k).isSome

def insert (m : OrderedMap κ α) (k : κ) (a : α) : OrderedMap κ α :=
  ⟨Entries.insert k a m.entries, Entries.nodup_insert m.nodup⟩

def erase (m : OrderedMap κ α) (k : κ) : OrderedMap κ α := m.filter fun l _ => l ≠ k

def ofPairs (pairs : List (κ × α)) : OrderedMap κ α :=
  ⟨Entries.ofPairs pairs, Entries.nodup_ofPairs pairs⟩

def SameEntries [DecidableEq α] (m n : OrderedMap κ α) : Bool :=
  m.size == n.size && m.entries.all fun e => n.find? e.1 == some e.2

theorem find?_insert {m : OrderedMap κ α} {k x : κ} {a : α} :
    (m.insert k a).find? x = if k = x then some a else m.find? x :=
  Entries.find?_insert

theorem mem_keys_insert {m : OrderedMap κ α} {k x : κ} {a : α} :
    x ∈ (m.insert k a).keys ↔ x = k ∨ x ∈ m.keys :=
  Entries.mem_keys_insert

end OrderedMap

end EventContexts
