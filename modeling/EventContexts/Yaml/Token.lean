import EventContexts.Yaml.Scalar
/-!
The tokens of a YAML text. Outside brackets, columns tell where lists and maps start and end; there
are tokens for that too. Whether something is a key shows only when a colon follows it, so the
token that says so is put in before it then.
-/

namespace EventContexts.Yaml

inductive Token where
  | plain (s : String)
  | quoted (s : String)
  | item
  | key
  | value
  | comma
  | openSeq
  | closeSeq
  | openMap
  | closeMap
  | startItems
  | startMembers
  | finish
  | documentStart
  | documentEnd
  deriving DecidableEq, Repr

structure Candidate where
  tokensBefore : Nat
  place : Place
  /-- It stands where a map has its keys, so it cannot be anything else. -/
  required : Bool
  deriving DecidableEq, Repr

/-- A key and its colon stand in one line, at most 1024 characters apart. -/
def Candidate.isPast (k : Candidate) (here : Place) : Bool :=
  k.place.line < here.line || k.place.index + 1024 < here.index

structure Outline where
  tokens : List Token := []
  /-- The columns of the lists and maps that columns have started, the innermost first. -/
  columns : List Nat := []
  candidate : Option Candidate := none
  outer : List (Option Candidate) := []
  keyAllowed : Bool := true

namespace Outline

def inFlow (o : Outline) : Bool := !o.outer.isEmpty

def push (o : Outline) (t : Token) : Outline := { o with tokens := t :: o.tokens }

def margin (o : Outline) : Nat :=
  match o.columns with
  | [] => 0
  | column :: _ => column + 1

def insert (o : Outline) (added : List Token) (tokensBefore : Nat) : Outline :=
  let (after, before) := o.tokens.splitAt (o.tokens.length - tokensBefore)
  { o with tokens := after ++ added ++ before }

/-- Ends lists and maps from the innermost one on, for as long as a test says so. Inside brackets
columns end nothing. -/
def finishWhile (ends : Nat → Bool) (o : Outline) : Outline :=
  if o.inFlow then o
  else
    { o with
      tokens := (o.columns.takeWhile ends).map (fun _ => Token.finish) ++ o.tokens
      columns := o.columns.dropWhile ends }

def start (o : Outline) (t : Token) (column : Nat) : Outline :=
  if !o.inFlow && o.margin ≤ column then
    { o with tokens := t :: o.tokens, columns := column :: o.columns }
  else o

def forget? (o : Outline) : Option Outline :=
  if o.candidate.any (·.required) then none else some { o with candidate := none }

def offer? (o : Outline) (here : Place) : Option Outline :=
  if o.keyAllowed then
    o.forget?.map fun o =>
      let required := !o.inFlow && o.columns.head? == some here.column
      { o with candidate := some { tokensBefore := o.tokens.length, place := here, required } }
  else some o

def expire? (o : Outline) (here : Place) : Option Outline :=
  let expire? : Option Candidate → Option (Option Candidate)
    | some k => if k.isPast here then (if k.required then none else some none) else some (some k)
    | none => some none
  do return { o with candidate := ← expire? o.candidate, outer := ← o.outer.mapM expire? }

def mark? (o : Outline) (t : Token) : Option Outline :=
  ((o.finishWhile fun _ => true).forget?).map fun o => { o with keyAllowed := false }.push t

def openBracket? (o : Outline) (t : Token) (here : Place) : Option Outline :=
  (o.offer? here).map fun o =>
    { o with candidate := none, outer := o.candidate :: o.outer, keyAllowed := true }.push t

def closeBracket? (o : Outline) (t : Token) : Option Outline :=
  o.forget?.map fun o =>
    let o := { o with keyAllowed := false }.push t
    match o.outer with
    | [] => o
    | candidate :: outer => { o with candidate, outer }

def comma? (o : Outline) : Option Outline :=
  o.forget?.map fun o => { o with keyAllowed := true }.push .comma

/-- A dash or a question mark that stands apart. Outside brackets it stands where a key may. -/
def indicator? (o : Outline) (t starts : Token) (keyAfter : Bool) (here : Place) :
    Option Outline :=
  if o.inFlow || o.keyAllowed then
    (o.start starts here.column).forget?.map fun o => { o with keyAllowed := keyAfter }.push t
  else none

def dash? (o : Outline) (here : Place) : Option Outline :=
  o.indicator? .item .startItems true here

def question? (o : Outline) (here : Place) : Option Outline :=
  o.indicator? .key .startMembers (!o.inFlow) here

/-- A colon makes a key of what may be one. Without that it stands where a key may. -/
def colon? (o : Outline) (here : Place) : Option Outline :=
  match o.candidate with
  | some k =>
      let o := { o with candidate := none, keyAllowed := false }
      if !o.inFlow && o.margin ≤ k.place.column then
        let o := o.insert [.key, .startMembers] k.tokensBefore
        some ({ o with columns := k.place.column :: o.columns }.push .value)
      else some ((o.insert [.key] k.tokensBefore).push .value)
  | none =>
      if o.inFlow then some ({ o with keyAllowed := false }.push .value)
      else if o.keyAllowed then some ((o.start .startMembers here.column).push .value)
      else none

/-- A scalar that starts here. A key may come after it only on a new line. -/
def scalar? (o : Outline) (t : Token) (endsLine : Bool) (here : Place) : Option Outline :=
  (o.offer? here).map fun o => { o with keyAllowed := endsLine }.push t

end Outline

def isReserved (c : Char) : Bool := "*&!|>%@`\t".toList.contains c

def token? (o : Outline) (cs : List Char) (here : Place) : Option (Outline × Cursor) :=
  if here.column = 0 ∧ atMarker cs then
    (o.mark? (if cs.head? = some '-' then .documentStart else .documentEnd)).map fun o =>
      (o, ⟨cs.drop 3, here.along 3⟩)
  else
    match cs with
    | [] => none
    | c :: rest =>
        let next := here.along 1
        let taken (o : Option Outline) : Option (Outline × Cursor) :=
          o.map fun o => (o, ⟨rest, next⟩)
        let plain? : Option (Outline × Cursor) := do
          let scalar ← readPlain? o.inFlow o.margin cs here {}
          return (← o.scalar? (.plain scalar.text) scalar.endsLine here, scalar.after)
        match c with
        | '[' => taken (o.openBracket? .openSeq here)
        | '{' => taken (o.openBracket? .openMap here)
        | ']' => taken (o.closeBracket? .closeSeq)
        | '}' => taken (o.closeBracket? .closeMap)
        | ',' => taken o.comma?
        | '\'' => do
            let (s, after) ← readSingle? rest next {}
            return (← o.scalar? (.quoted s) false here, after)
        | '"' => do
            let (s, after) ← readDouble? 0 rest next {}
            return (← o.scalar? (.quoted s) false here, after)
        | '-' => if atGap rest then taken (o.dash? here) else plain?
        | '?' => if o.inFlow || atGap rest then taken (o.question? here) else plain?
        | ':' => if o.inFlow || atGap rest then taken (o.colon? here) else plain?
        | c => if isReserved c then none else plain?

/-- Moves over blanks, ends of lines, comments and byte order marks at the start of a line, and
tells whether a key may come then. A tab may stand only where no key may, or inside brackets. -/
def skipVoid (inFlow : Bool) :
    (inComment keyAllowed : Bool) → List Char → Place → Bool × Cursor
  | _, keyAllowed, [], here => (keyAllowed, ⟨[], here⟩)
  | inComment, keyAllowed, c :: cs, here =>
      if isBreak c then skipVoid inFlow false (keyAllowed || !inFlow) cs (here.after c)
      else if inComment || c = '#' then skipVoid inFlow true keyAllowed cs (here.after c)
      else if c = ' ' || c = '\t' && (inFlow || !keyAllowed) || c = '\ufeff' && here.column = 0 then
        skipVoid inFlow false keyAllowed cs (here.after c)
      else (keyAllowed, ⟨c :: cs, here⟩)

/-- The tokens of a text; every token takes at least one character. -/
def scan : (fuel : Nat) → Outline → Cursor → Option (List Token)
  | 0, _, _ => none
  | fuel + 1, o, cursor => do
      let (keyAllowed, cursor) := skipVoid o.inFlow false o.keyAllowed cursor.rest cursor.place
      let o ← { o with keyAllowed }.expire? cursor.place
      let o := o.finishWhile fun column => decide (cursor.place.column < column)
      if cursor.rest.isEmpty then
        return (← (o.finishWhile fun _ => true).forget?).tokens.reverse
      else
        let (o, cursor) ← token? o cursor.rest cursor.place
        scan fuel o cursor

def Token.ofText? (text : String) : Option (List Token) :=
  if text.toList.all isAllowed then
    let cs := unifyLines text.toList
    scan (cs.length + 1) {} { rest := cs }
  else none

end EventContexts.Yaml
