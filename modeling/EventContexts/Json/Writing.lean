import EventContexts.Document
import EventContexts.Decimal
import EventContexts.Text.Quoted
/-!
Writing documents as JSON texts, without spaces. What has no JSON text is written as null.
-/

namespace EventContexts.Json

/-- Quotes, backslashes and control characters are escaped, and nothing else. -/
def escape (c : Char) : List Char :=
  if c = '"' then ['\\', '"']
  else if c = '\\' then ['\\', '\\']
  else if c = '\x08' then ['\\', 'b']
  else if c = '\x0c' then ['\\', 'f']
  else if c = '\n' then ['\\', 'n']
  else if c = '\r' then ['\\', 'r']
  else if c = '\t' then ['\\', 't']
  else if c.toNat < 0x20 then
    ['\\', 'u', '0', '0', Nat.digitChar (c.toNat / 16), Nat.digitChar (c.toNat % 16)]
  else [c]

def writeText (s : String) : List Char := '"' :: (s.toList.flatMap escape ++ ['"'])

mutual

def write : Document → List Char
  | .null => "null".toList
  | .bool b => if b then "true".toList else "false".toList
  | .int n => (toString n).toList
  | .minusZero => "-0".toList
  | .float x => x.documentText.toList
  | .text s => writeText s
  | .seq items => '[' :: (writeItems items ++ [']'])
  | .map members => '{' :: (writeMembers members ++ ['}'])
  | .keyed _ => "null".toList
  | .unreadable => "null".toList

def writeItems : List Document → List Char
  | [] => []
  | [d] => write d
  | d :: rest => write d ++ ',' :: writeItems rest

def writeMembers : List (String × Document) → List Char
  | [] => []
  | [(key, d)] => writeText key ++ ':' :: write d
  | (key, d) :: rest => writeText key ++ ':' :: (write d ++ ',' :: writeMembers rest)

end

def text (d : Document) : String := String.ofList (write d)

end EventContexts.Json
