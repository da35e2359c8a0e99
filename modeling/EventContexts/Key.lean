import EventContexts.Value.Order
import EventContexts.Value.Text

namespace EventContexts

inductive Key where
  | keyed (values : List Value)
  | category (label : String)
  | hash (bucket : Int64)
  | episode (start : Int64) (number : UInt64)
  | temporal (start stop : Int64)
  deriving DecidableEq, Repr

def Key.text : Key → String
  | .keyed [v] => v.text
  | .keyed values => (Value.array values).text
  | .category label => label
  | .hash bucket => "bucket " ++ toString bucket.toInt
  | .episode start number => "episode " ++ toString number.toNat ++ "@" ++ toString start.toInt
  | .temporal start stop => "[" ++ toString start.toInt ++ ", " ++ toString stop.toInt ++ ")"

structure ControllerId where
  number : Nat
  deriving DecidableEq, Repr, Inhabited

def ControllerId.text (id : ControllerId) : String := "ctl-" ++ toString id.number

structure StatementId where
  number : UInt64
  deriving DecidableEq, Repr, Inhabited

def StatementId.text (id : StatementId) : String := "stmt-" ++ toString id.number.toNat

/-- A live child of a controller: a controller of the next level, or a partition. The generation
is never given twice, so a handle does not outlive its partition. -/
inductive Handle where
  | branch (parent : ControllerId) (path : UInt32) (child : ControllerId)
  | leaf (controller : ControllerId) (partition : UInt32) (generation : Nat)
  deriving DecidableEq, Repr

namespace Handle

def id : Handle → UInt32
  | .branch _ path _ => path
  | .leaf _ partition _ => partition

def owner : Handle → ControllerId
  | .branch parent _ _ => parent
  | .leaf controller _ _ => controller

end Handle

/-- A child as it is recreated after a restart: its identifier if it is a partition, and its own
children if it is a branch. -/
structure Assignment where
  key : Key
  partition : Option UInt32 := none
  children : List Assignment := []
  deriving Repr

def Assignment.find? (assignments : List Assignment) (key : Key) : Option Assignment :=
  assignments.find? fun a => a.key = key

end EventContexts
