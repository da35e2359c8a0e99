import EventContexts.PropertyType
import EventContexts.Proofs.Entries

namespace EventContexts

namespace Value

/-- The second value has the shape that is read off the first. -/
inductive Like : Value → Value → Prop
  | missing (a : Value) : Like a .null
  | anything (b : Value) : Like .null b
  | bool (a b : Bool) : Like (.bool a) (.bool b)
  | int (a b : Int64) : Like (.int a) (.int b)
  | float (a b : Binary64) : Like (.float a) (.float b)
  | whole (a : Binary64) (b : Int64) : Like (.float a) (.int b)
  | str (a b : String) : Like (.str a) (.str b)
  | timestamp (a b : Int64) : Like (.timestamp a) (.timestamp b)
  | empty (items : List Value) : Like (.array []) (.array items)
  | array {a : Value} {as items : List Value} (each : ∀ b ∈ items, Like a b) :
      Like (.array (a :: as)) (.array items)
  | map {as bs : List (String × Value)}
      (shared : ∀ k a b, (k, a) ∈ as → Entries.find? k bs = some b → Like a b) :
      Like (.map as) (.map bs)

mutual

/-- Each map in the value lists each of its names once. -/
def Distinct : Value → Prop
  | .array items => ItemsDistinct items
  | .map entries => (entries.map Prod.fst).Nodup ∧ EntriesDistinct entries
  | _ => True

def ItemsDistinct : List Value → Prop
  | [] => True
  | v :: rest => v.Distinct ∧ ItemsDistinct rest

def EntriesDistinct : List (String × Value) → Prop
  | [] => True
  | (_, v) :: rest => v.Distinct ∧ EntriesDistinct rest

end

mutual

/-- In each array that a type is read off, all items have the shape of the first. -/
def Even : Value → Prop
  | .array (first :: rest) => first.Even ∧ ∀ v ∈ rest, first.Like v
  | .map entries => EntriesEven entries
  | _ => True

def EntriesEven : List (String × Value) → Prop
  | [] => True
  | (_, v) :: rest => v.Even ∧ EntriesEven rest

end

theorem like_array {a : Value} {as items : List Value} :
    Like (.array (a :: as)) (.array items) ↔ ∀ b ∈ items, a.Like b := by
  refine ⟨fun h => ?_, .array⟩
  cases h with
  | array each => exact each

theorem like_map {as bs : List (String × Value)} :
    Like (.map as) (.map bs) ↔
      ∀ k a b, (k, a) ∈ as → Entries.find? k bs = some b → a.Like b := by
  refine ⟨fun h => ?_, .map⟩
  cases h with
  | map shared => exact shared

theorem like_map_self {entries : List (String × Value)} (h : (entries.map Prod.fst).Nodup) :
    Like (.map entries) (.map entries) ↔ ∀ e ∈ entries, e.2.Like e.2 := by
  have hfind : ∀ k v, Entries.find? k entries = some v ↔ (k, v) ∈ entries := fun _ _ =>
    OrderedMap.find?_eq_some (m := ⟨entries, h⟩)
  rw [like_map]
  constructor
  · intro hshared e he
    exact hshared e.1 e.2 e.2 he ((hfind _ _).2 he)
  · intro heach k a b ha hb
    obtain rfl : a = b := Option.some.inj (((hfind k a).2 ha).symm.trans hb)
    exact heach (k, a) ha

mutual

theorem like_self : ∀ {v : Value}, v.Distinct → (v.Like v ↔ v.Even)
  | .null, _ => iff_of_true (.missing _) trivial
  | .bool b, _ => iff_of_true (.bool b b) trivial
  | .int n, _ => iff_of_true (.int n n) trivial
  | .float x, _ => iff_of_true (.float x x) trivial
  | .str s, _ => iff_of_true (.str s s) trivial
  | .timestamp ms, _ => iff_of_true (.timestamp ms ms) trivial
  | .array [], _ => iff_of_true (.empty []) trivial
  | .array (first :: rest), h => by
      rw [like_array, List.forall_mem_cons, Even, like_self h.1]
  | .map entries, h => by
      rw [like_map_self h.1, Even, entries_like_self h.2]

theorem entries_like_self : ∀ {entries : List (String × Value)}, EntriesDistinct entries →
    ((∀ e ∈ entries, e.2.Like e.2) ↔ EntriesEven entries)
  | [], _ => iff_of_true (by simp) trivial
  | (_, v) :: rest, h => by
      rw [List.forall_mem_cons, EntriesEven, like_self h.1, entries_like_self h.2]

end

end Value

namespace PropertyType

open Value

theorem fieldsAccept_cons {name : String} {type : PropertyType}
    {fields : List (String × PropertyType)} {entries : List (String × Value)} :
    fieldsAccept ((name, type) :: fields) entries = true ↔
      (∀ v, Entries.find? name entries = some v → type.accepts v = true) ∧
        fieldsAccept fields entries = true := by
  rw [fieldsAccept, Bool.and_eq_true]
  refine and_congr_left' ?_
  cases Entries.find? name entries with
  | none => simp
  | some v => simp

mutual

theorem accepts_of : ∀ a b : Value, (of a).accepts b = true ↔ a.Like b
  | .null, b => by cases b <;> exact iff_of_true rfl (.anything _)
  | .bool _, b => by
      cases b <;> first | exact iff_of_true rfl (by constructor) | exact iff_of_false nofun nofun
  | .int _, b => by
      cases b <;> first | exact iff_of_true rfl (by constructor) | exact iff_of_false nofun nofun
  | .float _, b => by
      cases b <;> first | exact iff_of_true rfl (by constructor) | exact iff_of_false nofun nofun
  | .str _, b => by
      cases b <;> first | exact iff_of_true rfl (by constructor) | exact iff_of_false nofun nofun
  | .timestamp _, b => by
      cases b <;> first | exact iff_of_true rfl (by constructor) | exact iff_of_false nofun nofun
  | .array [], b => by
      cases b with
      | null => exact iff_of_true rfl (.missing _)
      | array items =>
          refine iff_of_true ?_ (.empty items)
          simp only [of, accepts, List.all_eq_true]
          rintro (_ | _) _ <;> rfl
      | _ => exact iff_of_false nofun nofun
  | .array (a :: _), b => by
      cases b with
      | null => exact iff_of_true rfl (.missing _)
      | array items =>
          simp only [of, accepts, List.all_eq_true, like_array, accepts_of a]
      | _ => exact iff_of_false nofun nofun
  | .map as, b => by
      cases b with
      | null => exact iff_of_true rfl (.missing _)
      | map bs => rw [of, accepts, like_map, fieldsAccept_ofEntries as bs]
      | _ => exact iff_of_false nofun nofun

theorem fieldsAccept_ofEntries : ∀ as bs : List (String × Value),
    fieldsAccept (ofEntries as) bs = true ↔
      ∀ k a b, (k, a) ∈ as → Entries.find? k bs = some b → a.Like b
  | [], bs => by simp [ofEntries, fieldsAccept]
  | (l, a) :: rest, bs => by
      simp only [ofEntries, fieldsAccept_cons, fieldsAccept_ofEntries rest bs, accepts_of a,
        List.mem_cons, Prod.mk.injEq]
      constructor
      · rintro ⟨hl, hrest⟩ k a' b (⟨rfl, rfl⟩ | hmem) hb
        · exact hl b hb
        · exact hrest k a' b hmem hb
      · intro h
        exact ⟨fun b => h l a b (.inl ⟨rfl, rfl⟩), fun k a' b hmem => h k a' b (.inr hmem)⟩

end

/-- The inferred type describes the value it is inferred from if and only if in each array all items
have the shape of the first. -/
theorem of_accepts_self {v : Value} (h : v.Distinct) : (of v).accepts v = true ↔ v.Even :=
  (accepts_of v v).trans (like_self h)

theorem of_accepts_records :
    let v := Value.array [.map [("loads", .array [.float ⟨0⟩, .int 2, .null])],
      .map [("loads", .null), ("name", .str "a")], .map [("loads", .array [])]]
    v.Distinct ∧ v.Even ∧ (of v).accepts v = true := by
  intro v
  have hdistinct : v.Distinct := by
    simp [v, Distinct, ItemsDistinct, EntriesDistinct]
  have haccepts : (of v).accepts v = true := by decide
  exact ⟨hdistinct, (of_accepts_self hdistinct).1 haccepts, haccepts⟩

theorem of_rejects_mixed :
    ¬ ∀ v : Value, v.Distinct → (of v).accepts v = true := by
  intro h
  have hmixed := h (.array [.int 1, .str "a"]) (by simp [Distinct, ItemsDistinct])
  exact absurd hmixed (by decide)

end PropertyType

end EventContexts
