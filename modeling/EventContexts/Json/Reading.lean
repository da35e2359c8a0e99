import EventContexts.Json.Token
/-!
Reading JSON texts. Tokens are taken one by one, with a stack of the containers that are open;
each token is looked at once.
-/

namespace EventContexts.Json

/-- An open container and what it holds so far, the latest first. A map waits for the value of a
key. -/
inductive Frame where
  | seq (before : List Document)
  | map (before : List (Option String × Document)) (key : Option String)

def maxDepth : Nat := 127

def held (stack : List Frame) (d : Document) : Document :=
  if stack.length < maxDepth then d else .unreadable

def mapOf (members : List (Option String × Document)) : Document :=
  match members.mapM fun (key, d) => key.map fun k => (k, d) with
  | some members => .map members
  | none => .unreadable

mutual

def readValue : List Token → List Frame → Option Document
  | .scalar d :: ts, stack => readRest ts d stack
  | .text (some s) :: ts, stack => readRest ts (.text s) stack
  | .text none :: ts, stack => readRest ts .unreadable stack
  | .openSeq :: .closeSeq :: ts, stack => readRest ts (held stack (.seq [])) stack
  | .openSeq :: ts, stack => readValue ts (.seq [] :: stack)
  | .openMap :: .closeMap :: ts, stack => readRest ts (held stack (.map [])) stack
  | .openMap :: .text key :: .colon :: ts, stack => readValue ts (.map [] key :: stack)
  | _, _ => none

def readRest : List Token → Document → List Frame → Option Document
  | [], d, [] => some d
  | .comma :: ts, d, .seq before :: stack => readValue ts (.seq (d :: before) :: stack)
  | .closeSeq :: ts, d, .seq before :: stack =>
      readRest ts (held stack (.seq (d :: before).reverse)) stack
  | .comma :: .text next :: .colon :: ts, d, .map before key :: stack =>
      readValue ts (.map ((key, d) :: before) next :: stack)
  | .closeMap :: ts, d, .map before key :: stack =>
      readRest ts (held stack (mapOf ((key, d) :: before).reverse)) stack
  | _, _, _ => none

end

def read? (text : String) : Option Document := do
  readValue (← Token.ofText? text) []

end EventContexts.Json
