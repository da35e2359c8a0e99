import EventContexts.Value.Order
import EventContexts.WordHash

namespace EventContexts.Value

mutual

def words : Value → List UInt64
  | .null => [0]
  | .bool b => [1, if b then 1 else 0]
  | .int n => [2, n.toUInt64]
  | .float x => [3, x.bits]
  | .str s => 4 :: WordHash.textWords s
  | .timestamp ms => [5, ms.toUInt64]
  | .array items => 6 :: UInt64.ofNat items.length :: itemWords items
  | .map entries => 7 :: UInt64.ofNat entries.length :: entryWords entries

def itemWords : List Value → List UInt64
  | [] => []
  | v :: rest => words v ++ itemWords rest

def entryWords : List (String × Value) → List UInt64
  | [] => []
  | (k, v) :: rest => WordHash.textWords k ++ words v ++ entryWords rest

end

def hash (v : Value) : UInt64 := WordHash.ofWords v.words

/-- One of `granularity` buckets, the first one if there are none to choose from. -/
def bucket (v : Value) (granularity : Int64) : Int64 :=
  if granularity ≤ 0 then 0
  else Int64.ofNat (v.hash.toNat % granularity.toNatClampNeg)

end EventContexts.Value
