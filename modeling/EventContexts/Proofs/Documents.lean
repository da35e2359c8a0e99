import EventContexts.Proofs.Inference
import EventContexts.Proofs.JsonTexts
import EventContexts.Schema.Assignment
import EventContexts.Schema.Event

namespace EventContexts

namespace Value

mutual

def parts : Value → List Value
  | .array items => .array items :: itemParts items
  | .map entries => .map entries :: entryParts entries
  | v => [v]

def itemParts : List Value → List Value
  | [] => []
  | v :: rest => v.parts ++ itemParts rest

def entryParts : List (String × Value) → List Value
  | [] => []
  | (_, v) :: rest => v.parts ++ entryParts rest

end

mutual

/-- Integers for time stamps, wherever they are. -/
def timeless : Value → Value
  | .timestamp ms => .int ms
  | .array items => .array (itemsTimeless items)
  | .map entries => .map (entriesTimeless entries)
  | v => v

def itemsTimeless : List Value → List Value
  | [] => []
  | v :: rest => v.timeless :: itemsTimeless rest

def entriesTimeless : List (String × Value) → List (String × Value)
  | [] => []
  | (name, v) :: rest => (name, v.timeless) :: entriesTimeless rest

end

def Floatless (v : Value) : Prop := ∀ x, .float x ∉ v.parts

def Undated (v : Value) : Prop := ∀ ms, .timestamp ms ∉ v.parts

theorem keys_entriesTimeless (entries : List (String × Value)) :
    (entriesTimeless entries).map Prod.fst = entries.map Prod.fst := by
  induction entries with
  | nil => rfl
  | cons e rest ih => rw [entriesTimeless, List.map_cons, ih, List.map_cons]

mutual

theorem timeless_eq_self : ∀ {v : Value}, v.Undated → v.timeless = v
  | .null, _ => rfl
  | .bool _, _ => rfl
  | .int _, _ => rfl
  | .float _, _ => rfl
  | .str _, _ => rfl
  | .timestamp ms, h => absurd (List.mem_singleton_self _) (h ms)
  | .array items, h => by
      rw [timeless, itemsTimeless_eq_self fun ms hms => h ms (List.mem_cons_of_mem _ hms)]
  | .map entries, h => by
      rw [timeless, entriesTimeless_eq_self fun ms hms => h ms (List.mem_cons_of_mem _ hms)]

theorem itemsTimeless_eq_self : ∀ {items : List Value}, (∀ ms, .timestamp ms ∉ itemParts items) →
    itemsTimeless items = items
  | [], _ => rfl
  | v :: rest, h => by
      rw [itemsTimeless, timeless_eq_self fun ms hms => h ms (List.mem_append_left _ hms),
        itemsTimeless_eq_self fun ms hms => h ms (List.mem_append_right _ hms)]

theorem entriesTimeless_eq_self : ∀ {entries : List (String × Value)},
    (∀ ms, .timestamp ms ∉ entryParts entries) → entriesTimeless entries = entries
  | [], _ => rfl
  | (name, v) :: rest, h => by
      rw [entriesTimeless, timeless_eq_self fun ms hms => h ms (List.mem_append_left _ hms),
        entriesTimeless_eq_self fun ms hms => h ms (List.mem_append_right _ hms)]

end

end Value

namespace Document

/-- What is written of `a` is plain, and is read as `b`. -/
def Returns {α : Type} (write : α → Document) (read? : Document → Option α) (a b : α) : Prop :=
  (write a).Plain ∧ read? (write a) = some b

@[simp] theorem plain_text (s : String) : (Document.text s).Plain := .text s

@[simp] theorem plain_bool (b : Bool) : (Document.bool b).Plain := .bool b

@[simp] theorem plain_seq {items : List Document} :
    (Document.seq items).Plain ↔ ∀ d ∈ items, d.Plain := by
  refine ⟨fun h => ?_, .seq⟩
  cases h with
  | seq each => exact each

@[simp] theorem plain_map {members : List (String × Document)} :
    (Document.map members).Plain ↔ ∀ m ∈ members, m.2.Plain := by
  refine ⟨fun h => ?_, .map⟩
  cases h with
  | map each => exact each

theorem returns_text (s : String) : Returns .text asText? s s := ⟨.text s, rfl⟩

@[simp] theorem plain_int64 (n : Int64) : (Document.int n.toInt).Plain := by
  have hlow := n.le_toInt
  have hhigh := n.toInt_lt
  refine .int _ hlow ?_
  change n.toInt < 18446744073709551616
  omega

theorem returns_int64 (n : Int64) : Returns (fun n => .int n.toInt) asInt64? n n := by
  have hrange : Int64.minValue.toInt ≤ n.toInt ∧ n.toInt < Int64.maxValue.toInt + 1 :=
    ⟨n.le_toInt, n.toInt_lt⟩
  refine ⟨plain_int64 n, ?_⟩
  rw [asInt64?, asIntIn?, if_pos hrange, Option.map_some, Int64.ofInt_toInt]

theorem plain_nat {n : Nat} (h : n < UInt64.size) : (Document.int n).Plain := by
  refine .int _ ?_ (Int.ofNat_lt.2 h)
  change -9223372036854775808 ≤ (n : Int)
  omega

theorem asIntIn?_nat {n bound : Nat} (h : n < bound) :
    (Document.int n).asIntIn? 0 bound = some (n : Int) :=
  if_pos ⟨Int.natCast_nonneg n, Int.ofNat_lt.2 h⟩

theorem returns_uint64 (n : UInt64) : Returns (fun n => .int n.toNat) asUInt64? n n := by
  refine ⟨plain_nat n.toNat_lt, ?_⟩
  rw [asUInt64?, asIntIn?_nat n.toNat_lt, Option.map_some, Int.toNat_natCast, UInt64.ofNat_toNat]

theorem returns_uint32 (n : UInt32) : Returns (fun n => .int n.toNat) asUInt32? n n := by
  refine ⟨plain_nat (Nat.lt_trans n.toNat_lt (by decide)), ?_⟩
  rw [asUInt32?, asIntIn?_nat n.toNat_lt, Option.map_some, Int.toNat_natCast, UInt32.ofNat_toNat]

theorem returns_optional {α : Type} {write : α → Document} {read? : Document → Option α}
    {o : Option α} (h : ∀ a ∈ o, Returns write read? a a) (hnull : ∀ a, write a ≠ .null) :
    Returns (fun o => o.elim .null write) (asOptional? read?) o o := by
  cases o with
  | none => exact ⟨.null, rfl⟩
  | some a =>
      obtain ⟨hplain, hread⟩ := h a rfl
      refine ⟨hplain, ?_⟩
      change asOptional? read? (write a) = some (some a)
      rw [asOptional?, hread, Option.map_some]
      exact hnull a

theorem returns_list {α : Type} {write : α → Document} {read? : Document → Option α} {f : α → α}
    {xs : List α} (h : ∀ x ∈ xs, Returns write read? x (f x)) :
    Returns (fun xs => .seq (xs.map write)) (asListOf? read?) xs (xs.map f) := by
  refine ⟨.seq fun d hd => ?_, List.mapM_map_eq_some fun x hx => (h x hx).2⟩
  obtain ⟨x, hx, rfl⟩ := List.mem_map.1 hd
  exact (h x hx).1

theorem returns_list_self {α : Type} {write : α → Document} {read? : Document → Option α}
    {xs : List α} (h : ∀ x ∈ xs, Returns write read? x x) :
    Returns (fun xs => .seq (xs.map write)) (asListOf? read?) xs xs := by
  have hall := returns_list (f := id) h
  rwa [List.map_id] at hall

end Document

open Document (Returns)

namespace Value

theorem returns_integer (n : Int64) : (Document.int n.toInt).Plain ∧
    ofDocument? (.int n.toInt) = some (.int n) := by
  have hrange : Int64.minValue.toInt ≤ n.toInt ∧ n.toInt ≤ Int64.maxValue.toInt :=
    ⟨n.le_toInt, Int.le_of_lt_add_one n.toInt_lt⟩
  refine ⟨Document.plain_int64 n, ?_⟩
  rw [ofDocument?, if_pos hrange, Int64.ofInt_toInt]

mutual

theorem returns : ∀ {v : Value}, v.Distinct → v.Floatless →
    Returns toDocument ofDocument? v v.timeless
  | .null, _, _ => ⟨.null, rfl⟩
  | .bool b, _, _ => ⟨.bool b, rfl⟩
  | .int n, _, _ => returns_integer n
  | .float x, _, h => absurd (List.mem_singleton_self _) (h x)
  | .str s, _, _ => ⟨.text s, rfl⟩
  | .timestamp ms, _, _ => returns_integer ms
  | .array items, h, hf => by
      obtain ⟨hplain, hread⟩ := items_return h fun x hx => hf x (List.mem_cons_of_mem _ hx)
      refine ⟨.seq hplain, ?_⟩
      rw [toDocument, ofDocument?, hread, Option.map_some, timeless]
  | .map entries, h, hf => by
      obtain ⟨hplain, hread⟩ := entries_return h.2 fun x hx => hf x (List.mem_cons_of_mem _ hx)
      have hkeys : ((entriesTimeless entries).map Prod.fst).Nodup := by
        rw [keys_entriesTimeless]
        exact h.1
      refine ⟨.map hplain, ?_⟩
      rw [toDocument, ofDocument?, hread, Option.map_some, timeless, Entries.ofPairs_eq hkeys]

theorem items_return : ∀ {items : List Value}, ItemsDistinct items →
    (∀ x, .float x ∉ itemParts items) → (∀ d ∈ itemsToDocuments items, d.Plain) ∧
      itemsOf? (itemsToDocuments items) = some (itemsTimeless items)
  | [], _, _ => ⟨nofun, rfl⟩
  | v :: rest, h, hf => by
      obtain ⟨hplain, hread⟩ := returns h.1 fun x hx => hf x (List.mem_append_left _ hx)
      obtain ⟨hplains, hreads⟩ := items_return h.2 fun x hx => hf x (List.mem_append_right _ hx)
      refine ⟨List.forall_mem_cons.2 ⟨hplain, hplains⟩, ?_⟩
      rw [itemsToDocuments, itemsOf?, hread, hreads]
      rfl

theorem entries_return : ∀ {entries : List (String × Value)}, EntriesDistinct entries →
    (∀ x, .float x ∉ entryParts entries) → (∀ m ∈ entriesToDocuments entries, m.2.Plain) ∧
      entriesOf? (entriesToDocuments entries) = some (entriesTimeless entries)
  | [], _, _ => ⟨nofun, rfl⟩
  | (name, v) :: rest, h, hf => by
      obtain ⟨hplain, hread⟩ := returns h.1 fun x hx => hf x (List.mem_append_left _ hx)
      obtain ⟨hplains, hreads⟩ := entries_return h.2 fun x hx => hf x (List.mem_append_right _ hx)
      refine ⟨List.forall_mem_cons.2 ⟨hplain, hplains⟩, ?_⟩
      rw [entriesToDocuments, entriesOf?, hread, hreads]
      rfl

end

def Kept (f : Value → Value) (v : Value) : Prop := Returns toDocument ofDocument? v (f v)

end Value

variable {f : Value → Value}

namespace Test

def values : Test → List Value
  | .equal v => [v]
  | .oneOf values => values
  | .range low high => [low, high]
  | .hashBucket _ _ => []

def mapValues (f : Value → Value) : Test → Test
  | .equal v => .equal (f v)
  | .oneOf values => .oneOf (values.map f)
  | .range low high => .range (f low) (f high)
  | .hashBucket granularity bucket => .hashBucket granularity bucket

theorem mapValues_eq_self {t : Test} (h : ∀ v ∈ t.values, f v = v) : t.mapValues f = t := by
  cases t with
  | oneOf values =>
      have hvalues : ∀ v ∈ values, f v = v := h
      simp [mapValues, List.map_eq_self hvalues]
  | _ => simp_all [values, mapValues]

theorem returns {t : Test} (h : ∀ v ∈ t.values, v.Kept f) :
    Returns toDocument ofDocument? t (t.mapValues f) := by
  rw [Returns, ofDocument?]
  cases t with
  | equal v =>
      obtain ⟨hplain, hread⟩ := h v (List.mem_singleton_self _)
      simp [toDocument, Document.sole?, names, mapValues, hplain, hread]
  | oneOf values =>
      have hvalues : ∀ v ∈ values, v.Kept f := h
      obtain ⟨hplain, hread⟩ := Document.returns_list hvalues
      exact ⟨by simpa [toDocument] using hplain,
        by simp [toDocument, Document.sole?, names, mapValues, hread]⟩
  | range low high =>
      obtain ⟨hlow, hreadLow⟩ := h low (List.mem_cons_self ..)
      obtain ⟨hhigh, hreadHigh⟩ := h high (List.mem_cons_of_mem _ (List.mem_singleton_self _))
      simp [toDocument, Document.sole?, names, Document.fields?, Document.member?, Document.pick?,
        mapValues, hlow, hhigh, hreadLow, hreadHigh]
  | hashBucket granularity bucket =>
      have hgranularity := (Document.returns_int64 granularity).2
      have hbucket := (Document.returns_int64 bucket).2
      simp [toDocument, Document.sole?, names, Document.fields?, Document.member?, Document.pick?,
        mapValues, hgranularity, hbucket]

end Test

namespace Constraint

def values (c : Constraint) : List Value := c.test.values

def mapValues (f : Value → Value) (c : Constraint) : Constraint :=
  { c with test := c.test.mapValues f }

theorem mapValues_eq_self {c : Constraint} (h : ∀ v ∈ c.values, f v = v) : c.mapValues f = c := by
  rw [mapValues, Test.mapValues_eq_self h]

theorem returns {c : Constraint} (h : ∀ v ∈ c.values, v.Kept f) :
    Returns toDocument ofDocument? c (c.mapValues f) := by
  obtain ⟨hplain, hread⟩ := Test.returns h
  rw [Returns, ofDocument?]
  simp [toDocument, Document.fields?, Document.member?, Document.pick?, Document.asText?, mapValues,
    hplain, hread]

def listValues (constraints : List Constraint) : List Value := constraints.flatMap values

def mapListValues (f : Value → Value) (constraints : List Constraint) : List Constraint :=
  constraints.map fun c => c.mapValues f

theorem mapListValues_eq_self {constraints : List Constraint}
    (h : ∀ v ∈ listValues constraints, f v = v) : mapListValues f constraints = constraints :=
  List.map_eq_self fun c hc => mapValues_eq_self fun v hv => h v (List.mem_flatMap.2 ⟨c, hc, hv⟩)

theorem list_returns {constraints : List Constraint} (h : ∀ v ∈ listValues constraints, v.Kept f) :
    Returns listToDocument (Document.asListOf? ofDocument?) constraints
      (mapListValues f constraints) :=
  Document.returns_list fun c hc => returns fun v hv => h v (List.mem_flatMap.2 ⟨c, hc, hv⟩)

end Constraint

namespace Key

def values : Key → List Value
  | .keyed values => values
  | _ => []

def mapValues (f : Value → Value) : Key → Key
  | .keyed values => .keyed (values.map f)
  | key => key

theorem mapValues_eq_self {k : Key} (h : ∀ v ∈ k.values, f v = v) : k.mapValues f = k := by
  cases k with
  | keyed values =>
      have hvalues : ∀ v ∈ values, f v = v := h
      simp [mapValues, List.map_eq_self hvalues]
  | _ => rfl

theorem returns {k : Key} (h : ∀ v ∈ k.values, v.Kept f) :
    Returns toDocument ofDocument? k (k.mapValues f) := by
  rw [Returns]
  cases k with
  | keyed values =>
      have hvalues : ∀ v ∈ values, v.Kept f := h
      obtain ⟨hplain, hread⟩ := Document.returns_list hvalues
      exact ⟨by simpa [toDocument] using hplain,
        by simp [toDocument, ofDocument?, mapValues, hread]⟩
  | category label => simp [toDocument, ofDocument?, mapValues, Document.asText?]
  | hash bucket =>
      have hbucket := (Document.returns_int64 bucket).2
      simp [toDocument, ofDocument?, mapValues, hbucket]
  | episode start number =>
      have hstart := (Document.returns_int64 start).2
      obtain ⟨hplain, hnumber⟩ := Document.returns_uint64 number
      simp [toDocument, ofDocument?, Document.fields?, Document.member?, Document.pick?, mapValues,
        hplain, hstart, hnumber]
  | temporal start stop =>
      have hstart := (Document.returns_int64 start).2
      have hstop := (Document.returns_int64 stop).2
      simp [toDocument, ofDocument?, Document.fields?, Document.member?, Document.pick?, mapValues,
        hstart, hstop]

end Key

namespace Assignment

mutual

def values : Assignment → List Value
  | ⟨key, _, children⟩ => key.values ++ listValues children

def listValues : List Assignment → List Value
  | [] => []
  | a :: rest => a.values ++ listValues rest

end

mutual

def mapValues (f : Value → Value) : Assignment → Assignment
  | ⟨key, partition, children⟩ => ⟨key.mapValues f, partition, mapListValues f children⟩

def mapListValues (f : Value → Value) : List Assignment → List Assignment
  | [] => []
  | a :: rest => a.mapValues f :: mapListValues f rest

end

mutual

theorem mapValues_eq_self : ∀ {a : Assignment}, (∀ v ∈ a.values, f v = v) → a.mapValues f = a
  | ⟨key, partition, children⟩, h => by
      rw [mapValues, Key.mapValues_eq_self fun v hv => h v (List.mem_append_left _ hv),
        mapListValues_eq_self fun v hv => h v (List.mem_append_right _ hv)]

theorem mapListValues_eq_self : ∀ {as : List Assignment}, (∀ v ∈ listValues as, f v = v) →
    mapListValues f as = as
  | [], _ => rfl
  | a :: rest, h => by
      rw [mapListValues, mapValues_eq_self fun v hv => h v (List.mem_append_left _ hv),
        mapListValues_eq_self fun v hv => h v (List.mem_append_right _ hv)]

end

mutual

theorem returns : ∀ {a : Assignment}, (∀ v ∈ a.values, v.Kept f) →
    Returns toDocument ofDocument? a (a.mapValues f)
  | ⟨key, partition, children⟩, h => by
      obtain ⟨hkey, hreadKey⟩ := Key.returns fun v hv => h v (List.mem_append_left _ hv)
      obtain ⟨hpartition, hreadPartition⟩ := Document.returns_optional (o := partition)
        (fun p _ => Document.returns_uint32 p) nofun
      obtain ⟨hchildren, hreadChildren⟩ :=
        items_return fun v hv => h v (List.mem_append_right _ hv)
      constructor
      · simpa [toDocument, hkey, hpartition] using hchildren
      · rw [toDocument, ofDocument?]
        simp [Document.fields?, Document.member?, Document.pick?, ofParts?, Document.orDefault?,
          childrenAmong, listOfDocument?, partitionsAmong, only?, mapValues, hreadKey,
          hreadPartition, hreadChildren]

theorem items_return : ∀ {as : List Assignment}, (∀ v ∈ listValues as, v.Kept f) →
    (∀ d ∈ itemsToDocuments as, d.Plain) ∧
      itemsOf? (itemsToDocuments as) = some (mapListValues f as)
  | [], _ => ⟨nofun, rfl⟩
  | a :: rest, h => by
      obtain ⟨hplain, hread⟩ := returns fun v hv => h v (List.mem_append_left _ hv)
      obtain ⟨hplains, hreads⟩ := items_return fun v hv => h v (List.mem_append_right _ hv)
      refine ⟨List.forall_mem_cons.2 ⟨hplain, hplains⟩, ?_⟩
      rw [itemsToDocuments, itemsOf?, hread, hreads]
      rfl

end

theorem list_returns {as : List Assignment} (h : ∀ v ∈ listValues as, v.Kept f) :
    Returns listToDocument listOfDocument? as (mapListValues f as) := by
  obtain ⟨hplain, hread⟩ := items_return h
  refine ⟨by simpa [listToDocument] using hplain, ?_⟩
  simp [listToDocument, listOfDocument?, partitionsAmong, only?, hread]

end Assignment

end EventContexts
