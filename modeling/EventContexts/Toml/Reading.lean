import EventContexts.Toml.Scalar
import EventContexts.Toml.Table

namespace EventContexts.Toml

def evenLines : List Char → List Char
  | [] => []
  | '\r' :: '\n' :: cs => '\n' :: evenLines cs
  | c :: cs => c :: evenLines cs

def endOfLine? (cs : List Char) : Option (List Char) :=
  let cs := match skipBlank cs with
    | '#' :: cs => cs.dropWhile fun c => !isForbidden c
    | cs => cs
  match cs with
  | [] => some []
  | '\n' :: cs => some cs
  | _ => none

def skipVoid : (inComment : Bool) → List Char → List Char
  | _, [] => []
  | inComment, c :: cs =>
      if c = '\n' then skipVoid false cs
      else if inComment then (if isForbidden c then c :: cs else skipVoid true cs)
      else if c = '#' then skipVoid true cs
      else if isBlank c then skipVoid false cs
      else c :: cs

mutual

def readValue? : (fuel depth : Nat) → List Char → Option (Document × List Char)
  | 0, _, _ => none
  | fuel + 1, depth, cs =>
      match cs with
      | [] => none
      | '[' :: cs =>
          if depth + 1 < maxDepth then
            (readItems? fuel (depth + 1) cs).map fun (items, rest) => (.seq items, rest)
          else none
      | '{' :: cs =>
          if depth + 1 < maxDepth then
            match skipBlank cs with
            | '}' :: rest => (ofEntries? []).map fun d => (d, rest)
            | cs => do
                let (entries, rest) ← readMembers? fuel (depth + 1) cs
                return (← ofEntries? entries, rest)
          else none
      | c :: _ =>
          if c = '"' || c = '\'' then (readQuoted? cs).map fun (s, rest) => (.text s, rest)
          else
            (scalar? (cs.takeWhile isWordChar)).map fun d => (d, cs.dropWhile isWordChar)

def readItems? : (fuel depth : Nat) → List Char → Option (List Document × List Char)
  | 0, _, _ => none
  | fuel + 1, depth, cs =>
      match skipVoid false cs with
      | ']' :: rest => some ([], rest)
      | cs => do
          let (d, rest) ← readValue? fuel depth cs
          match skipVoid false rest with
          | ',' :: rest =>
              let (items, rest) ← readItems? fuel depth rest
              return (d :: items, rest)
          | ']' :: rest => return ([d], rest)
          | _ => none

def readMembers? : (fuel depth : Nat) → List Char →
    Option (List (List String × Document) × List Char)
  | 0, _, _ => none
  | fuel + 1, depth, cs => do
      let (key, rest) ← readKey? cs
      match rest with
      | '=' :: rest =>
          let (d, rest) ← readValue? fuel depth (skipBlank rest)
          match skipBlank rest with
          | ',' :: rest =>
              let (members, rest) ← readMembers? fuel depth rest
              return ((key, d) :: members, rest)
          | '}' :: rest => return ([(key, d)], rest)
          | _ => none
      | _ => none

end

def readHeader? (cs : List Char) : Option (Header × List Char) :=
  match cs with
  | '[' :: '[' :: cs => do
      let (key, rest) ← readKey? cs
      match rest with
      | ']' :: ']' :: rest => return (.element key.dropLast (key.getLast?.getD ""), rest)
      | _ => none
  | '[' :: cs => do
      let (key, rest) ← readKey? cs
      match rest with
      | ']' :: rest => return (.table key.dropLast (key.getLast?.getD ""), rest)
      | _ => none
  | _ => none

def readEntry? (cs : List Char) : Option ((List String × Document) × List Char) := do
  let (key, rest) ← readKey? cs
  match rest with
  | '=' :: rest =>
      let rest := skipBlank rest
      let (d, rest) ← readValue? (rest.length + 1) 0 rest
      return ((key, d), rest)
  | _ => none

/-- The sections of a text, the first one under the header given; every line takes at least one
character. -/
def readSections? : (fuel : Nat) → Header → (before : List (List String × Document)) →
    List Char → Option (List Section)
  | 0, _, _, _ => none
  | fuel + 1, header, before, cs =>
      match skipVoid false cs with
      | [] => some [{ header, entries := before.reverse }]
      | '[' :: cs => do
          let (next, rest) ← readHeader? ('[' :: cs)
          let rest ← endOfLine? rest
          return { header, entries := before.reverse } :: (← readSections? fuel next [] rest)
      | cs => do
          let (entry, rest) ← readEntry? cs
          readSections? fuel header (entry :: before) (← endOfLine? rest)

def unmark : List Char → List Char
  | '\ufeff' :: cs => cs
  | cs => cs

def read? (text : String) : Option Document := do
  let cs := evenLines (unmark text.toList)
  ofSections? (← readSections? (cs.length + 1) .root [] cs)

end EventContexts.Toml
