import EventContexts.Schema.Config
import EventContexts.Toml.Reading
import EventContexts.Yaml.Reading

namespace EventContexts

inductive LoadError where
  | missing
  | malformed
  deriving DecidableEq, Repr

namespace Config

/-- Where a configuration takes a scalar as text however it is spelled, and where nothing written
is an empty list or record. -/
def due : Yaml.Due :=
  .record
    [("name", .text), ("levels", .listOf (.record [("name", .text)])), ("manager", .record []),
      ("logging", .record [("level", .text), ("format", .text)])]

def maxDepth : Nat := 128

def ofYaml? (text : String) : Option Config := do
  match ← Yaml.read? text with
  | .map members => ofDocument? true ((Yaml.Node.map members).settle maxDepth due)
  | _ => none

/-- A list given for a record of two fields is read for as long as it has fields to give. -/
def leadingFields (d : Document) : Document :=
  match d with
  | .seq items => .seq (items.take 2)
  | d => d

def ofToml? (text : String) : Option Config := do
  match ← Toml.read? text with
  | .map members =>
      let members := members.map fun (name, d) =>
        (name, if name = "manager" ∨ name = "logging" then leadingFields d else d)
      ofDocument? false (.map members)
  | _ => none

/-- What comes after the last point of a file's name, unless the name starts with that point. -/
def extension (fileName : String) : String :=
  let reversed := fileName.toList.reverse
  let ending := reversed.takeWhile (· ≠ '.')
  if ending.length + 1 < reversed.length then String.ofList ending.reverse else ""

def orMalformed (c : Option Config) : Except LoadError Config :=
  match c with
  | some c => .ok c
  | none => .error .malformed

/-- The configuration in a file, from its name and, if it is there, its content. A name that tells
no format leaves both to be tried. -/
def load (fileName : String) (content : Option String) : Except LoadError Config :=
  match content with
  | none => .error .missing
  | some text =>
      match (extension fileName).map Char.toLower with
      | "yaml" => orMalformed (ofYaml? text)
      | "yml" => orMalformed (ofYaml? text)
      | "toml" => orMalformed (ofToml? text)
      | _ => orMalformed (ofYaml? text <|> ofToml? text)

end Config

end EventContexts
