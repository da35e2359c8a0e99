import EventContexts.Value.Order
import EventContexts.Calendar

namespace EventContexts

structure Event where
  type : String
  time : Instant := Instant.epoch
  data : Props := OrderedMap.empty
  deriving DecidableEq

namespace Event

/-- Sets the time from milliseconds; values outside the calendar leave it as it is. -/
def atMillis (e : Event) (ms : Int64) : Event :=
  match Instant.ofMillis? ms.toInt with
  | some t => { e with time := t }
  | none => e

def withField (e : Event) (name : String) (v : Value) : Event :=
  { e with data := e.data.insert name v }

def get? (e : Event) (name : String) : Option Value := e.data.find? name

def getInt? (e : Event) (name : String) : Option Int64 := (e.get? name).bind Value.asInt?

def getStr? (e : Event) (name : String) : Option String := (e.get? name).bind Value.asStr?

def field (e : Event) (name : String) : Value := (e.get? name).getD .null

def millis (e : Event) : Int64 := Int64.ofInt e.time.millis

def toValue (e : Event) : Value := Value.ofProps e.data

def sameAs (a b : Event) : Bool :=
  a.type == b.type && a.time == b.time && a.data.SameEntries b.data

end Event

end EventContexts
