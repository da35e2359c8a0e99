import EventContexts.Error

namespace EventContexts

structure Logging where
  level : String := "info"
  format : String := "text"
  deriving DecidableEq, Repr

namespace Logging

def directive (l : Logging) : String := "varpulis_context=" ++ l.level

def check (l : Logging) : Except Error Unit :=
  if l.format = "text" ∨ l.format = "json" then .ok () else .error (.logFormat l.format)

end Logging

end EventContexts
