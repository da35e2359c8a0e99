
namespace EventContexts.Yaml

/-- Control characters other than tabs and ends of lines stand nowhere in a text, nor do the two
places that Unicode keeps free at the end of its first plane. -/
def isAllowed (c : Char) : Bool :=
  let n := c.toNat
  n = 0x09 || n = 0x0A || n = 0x0D || (0x20 ≤ n && n ≤ 0x7E) || n = 0x85 ||
    (0xA0 ≤ n && n ≤ 0xFFFD) || 0x10000 ≤ n

/-- Lines that end in one line feed, whether they ended in that, in a carriage return, in both or
in the next-line mark. -/
def unifyLines : List Char → List Char
  | [] => []
  | '\r' :: '\n' :: cs => '\n' :: unifyLines cs
  | c :: cs => (if c = '\r' ∨ c = '\x85' then '\n' else c) :: unifyLines cs

def isBlank (c : Char) : Bool := c = ' ' || c = '\t'

/-- Whether a character ends its line. Unicode's separators do, and they are kept in scalars. -/
def isBreak (c : Char) : Bool := c = '\n' || c = '\u2028' || c = '\u2029'

def atGap : List Char → Bool
  | [] => true
  | c :: _ => isBlank c || isBreak c

/-- Whether three dashes or dots stand apart here. In the first column they mark where a document
starts or ends. -/
def atMarker : List Char → Bool
  | '-' :: '-' :: '-' :: cs => atGap cs
  | '.' :: '.' :: '.' :: cs => atGap cs
  | _ => false

def isFlowMark (c : Char) : Bool := c = ',' || c = '[' || c = ']' || c = '{' || c = '}'

structure Place where
  index : Nat := 0
  line : Nat := 0
  column : Nat := 0
  deriving DecidableEq, Repr

namespace Place

def along (p : Place) (n : Nat) : Place :=
  { p with index := p.index + n, column := p.column + n }

def after (p : Place) (c : Char) : Place :=
  if isBreak c then { index := p.index + 1, line := p.line + 1, column := 0 } else p.along 1

end Place

structure Cursor where
  rest : List Char
  place : Place := {}

end EventContexts.Yaml
