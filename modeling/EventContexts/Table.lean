/-!
Tables from 32-bit identifiers, listed by ascending identifier. Each operation keeps the order, so
a table has at most one entry per identifier.
-/

namespace EventContexts

structure Table (α : Type) where
  entries : List (UInt32 × α)
  ascending : (entries.map Prod.fst).Pairwise (· < ·)

namespace Table

variable {α β σ ε : Type}

def findIn (k : UInt32) : List (UInt32 × α) → Option α
  | [] => none
  | (l, a) :: rest => if l = k then some a else findIn k rest

def putIn (k : UInt32) (a : α) : List (UInt32 × α) → List (UInt32 × α)
  | [] => [(k, a)]
  | (l, b) :: rest =>
      if k < l then (k, a) :: (l, b) :: rest
      else if k = l then (k, a) :: rest
      else (l, b) :: putIn k a rest

theorem mem_keys_putIn {k x : UInt32} {a : α} {es : List (UInt32 × α)} :
    x ∈ (putIn k a es).map Prod.fst ↔ x = k ∨ x ∈ es.map Prod.fst := by
  induction es with
  | nil => simp [putIn]
  | cons e rest ih =>
      obtain ⟨l, b⟩ := e
      simp only [putIn]
      split
      · simp
      · split
        · next hk => subst hk; simp
        · simp only [List.map_cons, List.mem_cons, ih]
          exact or_left_comm

theorem ascending_putIn {k : UInt32} {a : α} {es : List (UInt32 × α)}
    (h : (es.map Prod.fst).Pairwise (· < ·)) :
    ((putIn k a es).map Prod.fst).Pairwise (· < ·) := by
  induction es with
  | nil => simp [putIn]
  | cons e rest ih =>
      obtain ⟨l, b⟩ := e
      obtain ⟨hl, hrest⟩ := List.pairwise_cons.1 h
      simp only [putIn]
      split
      · next hk =>
          refine List.pairwise_cons.2 ⟨fun x hx => ?_, h⟩
          rcases List.mem_cons.1 hx with rfl | hx
          · exact hk
          · exact UInt32.lt_trans hk (hl x hx)
      · split
        · next hk => subst hk; exact List.pairwise_cons.2 ⟨hl, hrest⟩
        · next hlt hne =>
            refine List.pairwise_cons.2 ⟨fun x hx => ?_, ih hrest⟩
            rcases mem_keys_putIn.1 hx with rfl | hx
            · exact UInt32.lt_of_le_of_ne (UInt32.not_lt.1 hlt) (Ne.symm hne)
            · exact hl x hx

def empty : Table α := ⟨[], List.Pairwise.nil⟩

instance : Inhabited (Table α) := ⟨empty⟩

def get? (t : Table α) (k : UInt32) : Option α := findIn k t.entries

def contains (t : Table α) (k : UInt32) : Bool := (t.get? k).isSome

def keys (t : Table α) : List UInt32 := t.entries.map Prod.fst

def size (t : Table α) : Nat := t.entries.length

def insert (t : Table α) (k : UInt32) (a : α) : Table α :=
  ⟨putIn k a t.entries, ascending_putIn t.ascending⟩

def erase (t : Table α) (k : UInt32) : Table α :=
  ⟨t.entries.filter (·.1 ≠ k), t.ascending.sublist (List.filter_sublist.map Prod.fst)⟩

theorem mem_keys_insert {t : Table α} {k x : UInt32} {a : α} :
    x ∈ (t.insert k a).keys ↔ x = k ∨ x ∈ t.keys :=
  mem_keys_putIn

theorem mem_keys_erase {t : Table α} {k x : UInt32} :
    x ∈ (t.erase k).keys ↔ x ∈ t.keys ∧ x ≠ k := by
  simp only [keys, erase, List.mem_map, List.mem_filter]
  constructor
  · rintro ⟨e, ⟨he, hk⟩, rfl⟩
    exact ⟨⟨e, he, rfl⟩, by simpa using hk⟩
  · rintro ⟨⟨e, he, rfl⟩, hk⟩
    exact ⟨e, ⟨he, by simpa using hk⟩, rfl⟩

def traverseIn (f : UInt32 → α → σ → Except ε β × σ) :
    (es : List (UInt32 × α)) → σ →
      Except ε { out : List (UInt32 × β) // out.map Prod.fst = es.map Prod.fst } × σ
  | [], s => (.ok ⟨[], rfl⟩, s)
  | (k, a) :: rest, s =>
      match f k a s with
      | (.error e, s) => (.error e, s)
      | (.ok b, s) =>
          match traverseIn f rest s with
          | (.error e, s) => (.error e, s)
          | (.ok out, s) => (.ok ⟨(k, b) :: out.1, by simp [out.2]⟩, s)

def traverse (f : UInt32 → α → σ → Except ε β × σ) (t : Table α) (s : σ) :
    Except ε (Table β) × σ :=
  match traverseIn f t.entries s with
  | (.error e, s) => (.error e, s)
  | (.ok out, s) => (.ok ⟨out.1, out.2.symm ▸ t.ascending⟩, s)

def replace (t : Table α) (k : UInt32) (a : α) : Table α :=
  if t.contains k then t.insert k a else t

end Table

end EventContexts
