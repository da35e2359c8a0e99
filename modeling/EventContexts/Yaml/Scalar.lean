import EventContexts.Text.Hex
import EventContexts.Yaml.Place
/-!
The scalars of YAML texts. They may run over several lines: a single end of a line then reads as a
blank, and further ones stand for themselves.
-/

namespace EventContexts.Yaml

/-- What stands between two words of a scalar. The characters come latest first. -/
inductive Gap where
  | blanks (cs : List Char)
  /-- The end of a line, unless that is escaped, and the ends of empty lines after it. Blanks
  around them do not count. -/
  | lines (first : Option Char) (more : List Char)
  deriving DecidableEq, Repr

namespace Gap

def empty : Gap := .blanks []

def isEmpty (g : Gap) : Bool := g == empty

def isLines : Gap → Bool
  | .blanks _ => false
  | .lines _ _ => true

def push (c : Char) : Gap → Gap
  | .blanks cs => if isBreak c then .lines (some c) [] else .blanks (c :: cs)
  | .lines first more => if isBreak c then .lines first (c :: more) else .lines first more

def read : Gap → List Char
  | .blanks cs => cs
  | .lines (some '\n') [] => [' ']
  | .lines (some '\n') more => more
  | .lines first more => more ++ first.toList

end Gap

/-- A scalar read so far, latest first: its words, and the gap that may end it. -/
structure Draft where
  words : List Char := []
  gap : Gap := .empty

namespace Draft

def read (d : Draft) : List Char := d.gap.read ++ d.words

def push (d : Draft) (c : Char) : Draft := { words := c :: d.read }

def pushGap (d : Draft) (c : Char) : Draft := { d with gap := d.gap.push c }

def joinLines (d : Draft) : Draft := { words := d.read, gap := .lines none [] }

def text (d : Draft) : String := String.ofList d.read.reverse

end Draft

structure Plain where
  text : String
  endsLine : Bool
  after : Cursor

/-- A plain scalar does not hold the gap at its end. -/
def Draft.stop (d : Draft) (rest : List Char) (here : Place) : Plain :=
  { text := String.ofList d.words.reverse, endsLine := d.gap.isLines, after := ⟨rest, here⟩ }

/-- Whether a plain scalar stops at a text that comes after a gap in it: at a comment, at a marker,
and outside brackets left of the margin. -/
def Gap.stops (g : Gap) (inFlow : Bool) (margin : Nat) (cs : List Char) (here : Place) : Bool :=
  !g.isEmpty && cs.head? == some '#' ||
    g.isLines && (here.column = 0 && atMarker cs || !inFlow && decide (here.column < margin))

/-- Reads on a plain scalar. A colon stops it before a gap, and may not come before a bracket, a
comma or a question mark inside brackets. A tab left of the margin is no indentation. -/
def readPlain? (inFlow : Bool) (margin : Nat) : List Char → Place → Draft → Option Plain
  | [], here, d => some (d.stop [] here)
  | c :: cs, here, d =>
      if isBlank c || isBreak c then
        if c = '\t' && d.gap.isLines && here.column < margin then none
        else readPlain? inFlow margin cs (here.after c) (d.pushGap c)
      else if d.gap.stops inFlow margin (c :: cs) here then some (d.stop (c :: cs) here)
      else if inFlow && c = ':' && cs.head?.any (fun next => isFlowMark next || next = '?') then
        none
      else if c = ':' && atGap cs || inFlow && isFlowMark c then some (d.stop (c :: cs) here)
      else readPlain? inFlow margin cs (here.after c) (d.push c)

def readSingle? : List Char → Place → Draft → Option (String × Cursor)
  | [], _, _ => none
  | '\'' :: '\'' :: cs, here, d => readSingle? cs (here.along 2) (d.push '\'')
  | '\'' :: cs, here, d => some (d.text, ⟨cs, here.along 1⟩)
  | c :: cs, here, d =>
      if isBlank c || isBreak c then readSingle? cs (here.after c) (d.pushGap c)
      else if here.column = 0 && atMarker (c :: cs) then none
      else readSingle? cs (here.after c) (d.push c)

def escaped? : Char → Option Char
  | '0' => some '\x00'
  | 'a' => some '\x07'
  | 'b' => some '\x08'
  | 't' => some '\t'
  | '\t' => some '\t'
  | 'n' => some '\n'
  | 'v' => some '\x0b'
  | 'f' => some '\x0c'
  | 'r' => some '\r'
  | 'e' => some '\x1b'
  | ' ' => some ' '
  | '"' => some '"'
  | '/' => some '/'
  | '\\' => some '\\'
  | 'N' => some '\x85'
  | '_' => some '\xa0'
  | 'L' => some '\u2028'
  | 'P' => some '\u2029'
  | _ => none

def announcedDigits : Char → Nat
  | 'x' => 2
  | 'u' => 4
  | 'U' => 8
  | _ => 0

/-- Reads on a double-quoted scalar. The first argument counts the characters of an escape that are
still to be passed over. -/
def readDouble? : Nat → List Char → Place → Draft → Option (String × Cursor)
  | _, [], _, _ => none
  | passed + 1, c :: cs, here, d => readDouble? passed cs (here.after c) d
  | 0, '"' :: cs, here, d => some (d.text, ⟨cs, here.along 1⟩)
  | 0, '\\' :: c :: cs, here, d =>
      let next := (here.along 1).after c
      let width := announcedDigits c
      if isBreak c then readDouble? 0 cs next d.joinLines
      else if width = 0 then do readDouble? 0 cs next (d.push (← escaped? c))
      else if cs.length < width then none
      else do readDouble? width cs next (d.push (← Text.charOfHex? (cs.take width)))
  | 0, c :: cs, here, d =>
      if isBlank c || isBreak c then readDouble? 0 cs (here.after c) (d.pushGap c)
      else if here.column = 0 && atMarker (c :: cs) then none
      else readDouble? 0 cs (here.after c) (d.push c)

end EventContexts.Yaml
