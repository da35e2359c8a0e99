import EventContexts.Value
/-!
Two comparisons of values. `Value.cmp` is the order of partition keys: it tells apart every two
values that differ in kind, bits, elements or entry order. `Value.numericCmp` compares two numbers
by the binary numbers nearest to them and falls back to `cmp` for all else.
-/

namespace EventContexts.Value

def rank : Value → Nat
  | .null => 0
  | .bool _ => 1
  | .int _ => 2
  | .float _ => 3
  | .str _ => 4
  | .timestamp _ => 5
  | .array _ => 6
  | .map _ => 7

mutual

def cmp : Value → Value → Ordering
  | .bool a, .bool b => compare a b
  | .int a, .int b => compare a.toInt b.toInt
  | .float a, .float b => a.totalCompare b
  | .str a, .str b => compare a b
  | .timestamp a, .timestamp b => compare a.toInt b.toInt
  | .array a, .array b => cmpItems a b
  | .map a, .map b => cmpEntries a b
  | a, b => compare a.rank b.rank

def cmpItems : List Value → List Value → Ordering
  | [], [] => .eq
  | [], _ :: _ => .lt
  | _ :: _, [] => .gt
  | a :: as, b :: bs => (cmp a b).then (cmpItems as bs)

def cmpEntries : List (String × Value) → List (String × Value) → Ordering
  | [], [] => .eq
  | [], _ :: _ => .lt
  | _ :: _, [] => .gt
  | (k, a) :: as, (l, b) :: bs => ((compare k l).then (cmp a b)).then (cmpEntries as bs)

end

mutual

theorem eq_of_cmp : ∀ (a b : Value), cmp a b = .eq → a = b
  | .null, b, h => by
      cases b <;> simp [cmp, rank] at h
      rfl
  | .bool a, b, h => by
      cases b <;> simp [cmp, rank] at h
      rw [h]
  | .int a, b, h => by
      cases b <;> simp [cmp, rank] at h
      exact congrArg _ (Int64.toInt_inj.1 h)
  | .float a, b, h => by
      cases b <;> simp [cmp, rank, Binary64.totalCompare] at h
      exact congrArg _ (Binary64.orderKey_injective h)
  | .str a, b, h => by
      cases b <;> simp [cmp, rank] at h
      rw [h]
  | .timestamp a, b, h => by
      cases b <;> simp [cmp, rank] at h
      exact congrArg _ (Int64.toInt_inj.1 h)
  | .array a, b, h => by
      cases b <;> simp [cmp, rank] at h
      exact congrArg _ (eq_of_cmpItems _ _ h)
  | .map a, b, h => by
      cases b <;> simp [cmp, rank] at h
      exact congrArg _ (eq_of_cmpEntries _ _ h)

theorem eq_of_cmpItems : ∀ (as bs : List Value), cmpItems as bs = .eq → as = bs
  | [], [], _ => rfl
  | [], _ :: _, h => by simp [cmpItems] at h
  | _ :: _, [], h => by simp [cmpItems] at h
  | a :: as, b :: bs, h => by
      simp only [cmpItems, Ordering.then_eq_eq] at h
      rw [eq_of_cmp a b h.1, eq_of_cmpItems as bs h.2]

theorem eq_of_cmpEntries :
    ∀ (as bs : List (String × Value)), cmpEntries as bs = .eq → as = bs
  | [], [], _ => rfl
  | [], _ :: _, h => by simp [cmpEntries] at h
  | _ :: _, [], h => by simp [cmpEntries] at h
  | (k, a) :: as, (l, b) :: bs, h => by
      simp only [cmpEntries, Ordering.then_eq_eq] at h
      rw [Std.LawfulEqOrd.eq_of_compare h.1.1, eq_of_cmp a b h.1.2, eq_of_cmpEntries as bs h.2]

end

mutual

theorem cmp_self : ∀ a : Value, cmp a a = .eq
  | .null => by simp [cmp]
  | .bool a => by simp [cmp]
  | .int a => by simp [cmp]
  | .float a => by simp [cmp, Binary64.totalCompare]
  | .str a => by simp [cmp]
  | .timestamp a => by simp [cmp]
  | .array a => by simp [cmp, cmpItems_self a]
  | .map a => by simp [cmp, cmpEntries_self a]

theorem cmpItems_self : ∀ as : List Value, cmpItems as as = .eq
  | [] => by simp [cmpItems]
  | a :: as => by simp [cmpItems, cmp_self a, cmpItems_self as]

theorem cmpEntries_self : ∀ as : List (String × Value), cmpEntries as as = .eq
  | [] => by simp [cmpEntries]
  | (k, a) :: as => by simp [cmpEntries, cmp_self a, cmpEntries_self as]

end

theorem cmp_eq_iff {a b : Value} : cmp a b = .eq ↔ a = b :=
  ⟨eq_of_cmp a b, fun h => h ▸ cmp_self a⟩

instance : DecidableEq Value := fun _ _ => decidable_of_iff _ cmp_eq_iff

instance : Ord Value := ⟨cmp⟩

def asNumeric? : Value → Option Binary64
  | .int n => some (Binary64.ofInt n.toInt)
  | .float x => some x
  | _ => none

def numericCmp (a b : Value) : Ordering :=
  match a.asNumeric?, b.asNumeric? with
  | some x, some y => x.totalCompare y
  | _, _ => cmp a b

def sort (values : List Value) : List Value :=
  values.mergeSort fun a b => (cmp a b).isLE

end EventContexts.Value
