import EventContexts.Key

namespace EventContexts

inductive Flaw where
  | noEventTypes (level : String)
  | noKeyProperties (level eventType : String)
  | unevenKeys (level first : String) (arity : Nat) (other : String) (otherArity : Nat)
  | noCategories (level : String)
  | repeatedLabel (level label : String)
  | granularity (level : String) (given : Int64)
  | duration (level : String) (given : Int64)
  | overlappingNow (level : String)
  | emptyRange (level : String) (start stop : Int64)
  deriving DecidableEq, Repr

def Flaw.message : Flaw → String
  | .noEventTypes level => s!"Segmented context '{level}' lists no event types"
  | .noKeyProperties level eventType =>
      s!"Segmented context '{level}' partitions '{eventType}' by no properties"
  | .unevenKeys level first arity other otherArity =>
      s!"Segmented context '{level}' requires the same number of properties per event type, " ++
        s!"'{first}' lists {arity} but '{other}' lists {otherArity}"
  | .noCategories level => s!"Category context '{level}' declares no categories"
  | .repeatedLabel level label =>
      s!"Category context '{level}' declares label '{label}' more than once"
  | .granularity level given =>
      s!"Hash context '{level}' requires a granularity between 1 and 4294967295, got {given}"
  | .duration level given =>
      s!"Context '{level}' must terminate after a positive duration, got {given} ms"
  | .overlappingNow level => s!"Context '{level}' cannot overlap episodes initiated by 'now'"
  | .emptyRange level start stop =>
      s!"Context '{level}' has an empty time range [{start}, {stop})"

inductive Mismatch where
  | noListedType (listed : List String)
  | noCategoryType (eventType : String)
  | noHashType (eventType : String)
  deriving DecidableEq, Repr

def Mismatch.message : Mismatch → String
  | .noListedType listed =>
      "segmented context requires that any of the event types that are listed in the segmented " ++
        "context also appear in any of the filter expressions of the statement, listed event " ++
        "types are: " ++ String.intercalate ", " listed
  | .noCategoryType eventType =>
      s!"category context requires that the event type '{eventType}' appears in a filter " ++
        "expression of the statement"
  | .noHashType eventType =>
      s!"hash context requires that the event type '{eventType}' appears in a filter " ++
        "expression of the statement"

inductive Error where
  | incompatible (context statement : String) (why : Mismatch)
  | repeatedLevel (context name : String)
  | noLevels (context : String)
  | wrongSelector (found : String) (expected : List String)
  | unsupported (what : String)
  | statementAttached (id : StatementId)
  | statementUnknown (id : StatementId)
  | controllerUnknown (id : ControllerId)
  | pathInUse (controller : ControllerId) (path : UInt32)
  | partitionInUse (partition : UInt32)
  | partitionLimit (context : String) (limit : Nat)
  | startFailed (statement : String) (partition : UInt32) (reason : String)
  | stopFailed (statement : String) (partition : UInt32) (reason : String)
  | flawed (why : Flaw)
  | logFormat (format : String)
  deriving DecidableEq, Repr

def Error.message : Error → String
  | .incompatible context statement why =>
      s!"Statement '{statement}' is incompatible with context '{context}': " ++ why.message
  | .repeatedLevel context name =>
      s!"Context '{context}' declares sub-context '{name}' more than once"
  | .noLevels context => s!"Context '{context}' declares no nesting levels"
  | .wrongSelector found expected =>
      s!"Invalid context partition selector '{found}', expected one of \x7b" ++
        String.intercalate ", " expected ++ "\x7d"
  | .unsupported what => s!"Operation not supported: {what}"
  | .statementAttached id => s!"Statement {id.text} is already attached"
  | .statementUnknown id => s!"Statement {id.text} is not attached"
  | .controllerUnknown id => s!"Controller {id.text} is not part of the context tree"
  | .pathInUse controller path =>
      s!"Controller {controller.text} already has a child at path {path}"
  | .partitionInUse partition => s!"Partition id {partition} is already in use"
  | .partitionLimit context limit =>
      s!"Context '{context}' reached its limit of {limit} partitions"
  | .startFailed statement partition reason =>
      s!"Failed to start statement '{statement}' in partition {partition}: {reason}"
  | .stopFailed statement partition reason =>
      s!"Failed to stop statement '{statement}' in partition {partition}: {reason}"
  | .flawed why => "Invalid context declaration: " ++ why.message
  | .logFormat format =>
      s!"Failed to initialise logging: unknown log format '{format}', expected text or json"

end EventContexts
