import EventContexts.Json.Reading
import EventContexts.Json.Writing
import EventContexts.Proofs.Lists
import Mathlib.Data.List.TakeWhile
/-!
Documents and their JSON texts. The text of a document falls into tokens that spell it, whatever
follows; and a document that is not too deep is read back from the tokens that spell it.
-/

namespace EventContexts

namespace Document

/-- A document without binary numbers, with integers of 64 bits, signed or not. -/
inductive Plain : Document → Prop
  | null : Plain .null
  | bool (b : Bool) : Plain (.bool b)
  | int (n : Int) (low : Int64.minValue.toInt ≤ n) (high : n < UInt64.size) : Plain (.int n)
  | text (s : String) : Plain (.text s)
  | seq {items : List Document} (each : ∀ d ∈ items, d.Plain) : Plain (.seq items)
  | map {members : List (String × Document)} (each : ∀ m ∈ members, m.2.Plain) :
      Plain (.map members)

mutual

def depth : Document → Nat
  | .seq items => itemsDepth items + 1
  | .map members => membersDepth members + 1
  | _ => 0

def itemsDepth : List Document → Nat
  | [] => 0
  | d :: rest => max d.depth (itemsDepth rest)

def membersDepth : List (String × Document) → Nat
  | [] => 0
  | (_, d) :: rest => max d.depth (membersDepth rest)

end

end Document

namespace Numeral

theorem natOf_toDigits (n : Nat) : natOf (Nat.toDigits 10 n) = n := by
  have hstep : (fun (n : Nat) (c : Char) => n * 10 + digitValue c) =
      fun n c => 10 * n + (c.toNat - '0'.toNat) := by
    funext n c
    rw [Nat.mul_comm]
    rfl
  rw [natOf, hstep, ← Nat.ofDigitChars_eq_foldl, Nat.ofDigitChars_ten_toDigits]

theorem isDigit_toDigits {n : Nat} : ∀ c ∈ Nat.toDigits 10 n, c.isDigit = true :=
  fun _ h => Nat.isDigit_of_mem_toDigits (by decide) (by decide) h

theorem head?_toDigits {n : Nat} (h : 0 < n) : (Nat.toDigits 10 n).head? ≠ some '0' := by
  induction n using Nat.strongRecOn with
  | _ n ih =>
      rcases Nat.lt_or_ge n 10 with hlt | hge
      · rw [Nat.toDigits_of_lt_base hlt, List.head?_singleton]
        intro hzero
        have := Nat.digitChar_eq_zero.1 (Option.some.inj hzero)
        omega
      · have hrest := ih (n / 10) (by omega) (by omega)
        rw [Nat.toDigits_of_base_le (by decide) hge, List.head?_append]
        cases hhead : (Nat.toDigits 10 (n / 10)).head? with
        | none => exact absurd (List.head?_eq_none_iff.1 hhead) Nat.toDigits_ne_nil
        | some c => rwa [hhead] at hrest

def ofNat (sign : Option Char) (n : Nat) : Numeral :=
  { sign, whole := Nat.toDigits 10 n, fraction := none, exponent := none }

theorem isTight_ofNat {sign : Option Char} {n : Nat} : (ofNat sign n).isTight = true := by
  rcases Nat.eq_zero_or_pos n with rfl | hpos
  · rfl
  · have hhead := head?_toDigits hpos
    have hne : Nat.toDigits 10 n ≠ [] := Nat.toDigits_ne_nil
    unfold isTight ofNat
    split
    · contradiction
    · rfl
    · simp_all

theorem toInt_ofNat {sign : Option Char} {n : Nat} :
    (ofNat sign n).toInt = if sign = some '-' then -(n : Int) else n := by
  simp [toInt, isNegative, ofNat, natOf_toDigits]

theorem splitDigits_toDigits {n : Nat} :
    splitDigits (Nat.toDigits 10 n) = (Nat.toDigits 10 n, []) :=
  Prod.ext (List.takeWhile_eq_self_iff.2 isDigit_toDigits)
    (List.dropWhile_eq_nil_iff.2 isDigit_toDigits)

theorem split?_toDigits {n : Nat} : split? (Nat.toDigits 10 n) = some (ofNat none n) := by
  have hsign : splitSign (Nat.toDigits 10 n) = (none, Nat.toDigits 10 n) := by
    have hdigits := isDigit_toDigits (n := n)
    unfold splitSign
    split
    · simp_all
    · simp_all
    · rfl
  simp [split?, hsign, splitDigits_toDigits, ofNat]

theorem split?_minus {n : Nat} : split? ('-' :: Nat.toDigits 10 n) = some (ofNat (some '-') n) := by
  simp [split?, splitSign, splitDigits_toDigits, ofNat]

end Numeral

namespace Json

theorem toList_int (n : Int) :
    (toString n).toList = if n < 0 then '-' :: Nat.toDigits 10 n.natAbs
      else Nat.toDigits 10 n.natAbs := by
  cases n <;> simp [Int.toString_eq_repr, Int.repr, Nat.repr_eq_ofList_toDigits]

theorem number?_ofNat {cs : List Char} {sign : Option Char} {n : Nat}
    (hsplit : Numeral.split? cs = some (.ofNat sign n)) (hplus : sign ≠ some '+')
    (hlow : Int64.minValue.toInt ≤ (Numeral.ofNat sign n).toInt)
    (hhigh : (Numeral.ofNat sign n).toInt < UInt64.size)
    (hzero : ¬((Numeral.ofNat sign n).isNegative ∧ (Numeral.ofNat sign n).toInt = 0)) :
    number? cs = some (.int (Numeral.ofNat sign n).toInt) := by
  have hcomplete : (Numeral.ofNat sign n).isComplete = true := rfl
  have hinteger : (Numeral.ofNat sign n).isInteger = true := rfl
  have hsign : (Numeral.ofNat sign n).sign ≠ some '+' := hplus
  simp only [number?, hsplit, Option.bind_eq_bind, Option.bind_some, Numeral.isTight_ofNat]
  rw [if_neg (by simp [hsign, hcomplete]), if_pos ⟨hinteger, hlow, hhigh, hzero⟩]

theorem number?_int {n : Int} (hlow : Int64.minValue.toInt ≤ n) (hhigh : n < UInt64.size) :
    number? (toString n).toList = some (.int n) := by
  rw [toList_int]
  split
  · next hneg =>
      have hvalue : (Numeral.ofNat (some '-') n.natAbs).toInt = n := by
        rw [Numeral.toInt_ofNat, if_pos rfl]
        omega
      have hread := number?_ofNat (Numeral.split?_minus (n := n.natAbs)) (by decide)
      rw [hvalue] at hread
      exact hread hlow hhigh (by omega)
  · next hpos =>
      have hvalue : (Numeral.ofNat none n.natAbs).toInt = n := by
        rw [Numeral.toInt_ofNat, if_neg nofun]
        omega
      have hread := number?_ofNat (Numeral.split?_toDigits (n := n.natAbs)) (by decide)
      rw [hvalue] at hread
      exact hread hlow hhigh (by rintro ⟨hneg, -⟩; cases hneg)

theorem hexUnit?_digits : ∀ n < 32,
    hexUnit? '0' '0' (Nat.digitChar (n / 16)) (Nat.digitChar (n % 16)) = some n := by decide

theorem not_surrogate (c : Char) : ¬(0xD800 ≤ c.toNat ∧ c.toNat < 0xE000) := by
  have hvalid : c.toNat.isValidChar := c.valid
  simp only [Nat.isValidChar] at hvalid
  omega

theorem charsOf?_map (cs : List Char) : charsOf? (cs.map Char.toNat) = some cs := by
  induction cs with
  | nil => rfl
  | cons c rest ih =>
      have hc := not_surrogate c
      cases rest with
      | nil => simp [charsOf?, hc]
      | cons next rest =>
          rw [List.map_cons, List.map_cons, charsOf?, if_neg (by omega), if_neg (by omega),
            ← List.map_cons, ih, Option.map_some, Char.ofNat_toNat]

theorem scanText_escape (c : Char) (cs : List Char) (before : List Nat) (done : List Token) :
    scanText (escape c ++ cs) before done = scanText cs (c.toNat :: before) done := by
  by_cases hshort : c ∈ ['"', '\\', '\x08', '\x0c', '\n', '\r', '\t']
  · simp only [List.mem_cons, List.not_mem_nil, or_false] at hshort
    rcases hshort with rfl | rfl | rfl | rfl | rfl | rfl | rfl <;> rfl
  · simp only [List.mem_cons, List.not_mem_nil, or_false, not_or] at hshort
    obtain ⟨hquote, hslash, hrest⟩ := hshort
    simp only [escape, hquote, hslash, hrest, if_false]
    split
    · next hcontrol =>
        simp only [List.cons_append, List.nil_append]
        rw [scanText, hexUnit?_digits _ hcontrol]
    · next hcontrol =>
        rw [List.singleton_append, scanText, if_neg hcontrol]
        · exact hquote
        · exact fun _ _ _ _ _ hc => absurd hc hslash
        · exact fun _ _ hc => absurd hc hslash

theorem scanText_chars (cs rest : List Char) (before : List Nat) (done : List Token) :
    scanText (cs.flatMap escape ++ rest) before done =
      scanText rest ((cs.map Char.toNat).reverse ++ before) done := by
  induction cs generalizing before with
  | nil => rfl
  | cons c cs ih =>
      rw [List.flatMap_cons, List.append_assoc, scanText_escape, ih]
      simp

theorem scan_writeText (s : String) (rest : List Char) (done : List Token) :
    scan (writeText s ++ rest) done = scan rest (.text (some s) :: done) := by
  rw [writeText, List.cons_append, List.append_assoc, List.singleton_append, scan, scanText_chars,
    scanText, List.append_nil, List.reverse_reverse, charsOf?_map, Option.map_some,
    String.ofList_toList]

/-- What may come after a number: nothing, or what divides or ends a container. -/
def Ends (rest : List Char) : Prop := ∀ c ∈ rest.head?, c = ',' ∨ c = ']' ∨ c = '}'

theorem scanNumber_end {rest before : List Char} (hrest : Ends rest) {d : Document}
    (hread : number? before.reverse = some d) (done : List Token) :
    scanNumber rest before done = scan rest (.scalar d :: done) := by
  cases rest with
  | nil => simp [scanNumber, scan, hread]
  | cons c cs =>
      rcases hrest c rfl with rfl | rfl | rfl <;>
        simp [scanNumber, scan, hread, isNumberChar, isSpace, Token.ofMark?]

theorem scanNumber_digits {digits : List Char} (hdigits : ∀ c ∈ digits, c.isDigit = true)
    (rest before : List Char) (done : List Token) :
    scanNumber (digits ++ rest) before done =
      scanNumber rest (digits.reverse ++ before) done := by
  induction digits generalizing before with
  | nil => rfl
  | cons c digits ih =>
      have hc : isNumberChar c = true := by simp [isNumberChar, hdigits c]
      rw [List.cons_append, scanNumber, if_pos hc,
        ih fun c hc => hdigits c (List.mem_cons_of_mem _ hc)]
      simp

theorem scan_digit {c : Char} (hc : c.isDigit = true ∨ c = '-') (cs : List Char)
    (done : List Token) : scan (c :: cs) done = scanNumber cs [c] done := by
  have hne (other : Char) (hother : ¬(other.isDigit = true ∨ other = '-')) : c ≠ other :=
    fun heq => hother (heq ▸ hc)
  have hspace : isSpace c = false := by
    simp [isSpace, hne ' ' (by decide), hne '\n' (by decide), hne '\r' (by decide),
      hne '\t' (by decide)]
  have hnumber : (c.isDigit || decide (c = '-')) = true := by simpa using hc
  rw [scan, if_neg (by simp [hspace]), if_pos hnumber]
  · exact hne _ (by decide)
  · exact fun _ h => absurd h (hne _ (by decide))
  · exact fun _ h => absurd h (hne _ (by decide))
  · exact fun _ h => absurd h (hne _ (by decide))

theorem scan_int {n : Int} (hlow : Int64.minValue.toInt ≤ n) (hhigh : n < UInt64.size)
    {rest : List Char} (hrest : Ends rest) (done : List Token) :
    scan ((toString n).toList ++ rest) done = scan rest (.scalar (.int n) :: done) := by
  have hread := number?_int hlow hhigh
  have hdigits := Numeral.isDigit_toDigits (n := n.natAbs)
  rw [toList_int] at hread ⊢
  by_cases hneg : n < 0
  · rw [if_pos hneg] at hread ⊢
    rw [List.cons_append, scan_digit (.inr rfl), scanNumber_digits hdigits]
    exact scanNumber_end hrest (by simpa using hread) done
  · rw [if_neg hneg] at hread ⊢
    cases hlist : Nat.toDigits 10 n.natAbs with
    | nil => exact absurd hlist Nat.toDigits_ne_nil
    | cons c digits =>
        rw [hlist] at hread hdigits
        rw [List.cons_append, scan_digit (.inl (hdigits c (List.mem_cons_self ..))),
          scanNumber_digits fun c hc => hdigits c (List.mem_cons_of_mem _ hc)]
        exact scanNumber_end hrest (by simpa using hread) done

end Json

namespace Document

open Json (Token)

mutual

def tokens : Document → List Token
  | .text s => [.text (some s)]
  | .seq items => .openSeq :: ([Token.comma].intercalate (itemTokens items) ++ [.closeSeq])
  | .map members => .openMap :: ([Token.comma].intercalate (memberTokens members) ++ [.closeMap])
  | d => [.scalar d]

def itemTokens : List Document → List (List Token)
  | [] => []
  | d :: rest => d.tokens :: itemTokens rest

def memberTokens : List (String × Document) → List (List Token)
  | [] => []
  | (key, d) :: rest => (.text (some key) :: .colon :: d.tokens) :: memberTokens rest

end

theorem itemTokens_eq (items : List Document) : itemTokens items = items.map tokens := by
  induction items with
  | nil => rfl
  | cons d rest ih => rw [itemTokens, ih, List.map_cons]

theorem memberTokens_eq (members : List (String × Document)) :
    memberTokens members =
      members.map fun m => .text (some m.1) :: .colon :: m.2.tokens := by
  induction members with
  | nil => rfl
  | cons m rest ih => rw [memberTokens, ih, List.map_cons]

end Document

namespace Json

theorem writeItems_eq (items : List Document) :
    writeItems items = [','].intercalate (items.map write) := by
  induction items with
  | nil => rfl
  | cons d rest ih =>
      cases rest with
      | nil => simp [writeItems, List.intercalate]
      | cons e rest =>
          rw [writeItems, ih]
          · simp [List.intercalate_cons_cons]
          · exact nofun

theorem writeMembers_eq (members : List (String × Document)) :
    writeMembers members =
      [','].intercalate (members.map fun m => writeText m.1 ++ ':' :: write m.2) := by
  induction members with
  | nil => rfl
  | cons m rest ih =>
      cases rest with
      | nil => simp [writeMembers, List.intercalate]
      | cons m' rest =>
          rw [writeMembers, ih]
          · simp [List.intercalate_cons_cons]
          · exact nofun

theorem scan_mark {c : Char} {mark : Token} (hmark : Token.ofMark? c = some mark)
    (cs : List Char) (done : List Token) : scan (c :: cs) done = scan cs (mark :: done) := by
  unfold Token.ofMark? at hmark
  split at hmark <;> cases hmark <;> rfl

/-- A piece of text falls into the tokens given, whatever ends it. -/
def Spells (piece : List Char) (ts : List Token) : Prop :=
  ∀ rest done, Ends rest → scan (piece ++ rest) done = scan rest (ts.reverse ++ done)

theorem ends_cons {c : Char} {rest : List Char} (hc : c = ',' ∨ c = ']' ∨ c = '}') :
    Ends (c :: rest) := by
  simpa [Ends] using hc

theorem spells_intercalate {α : Type} {piece : α → List Char} {ts : α → List Token} {xs : List α}
    (h : ∀ x ∈ xs, Spells (piece x) (ts x)) :
    Spells ([','].intercalate (xs.map piece)) ([Token.comma].intercalate (xs.map ts)) := by
  induction xs with
  | nil => exact fun rest done _ => rfl
  | cons x rest ih =>
      have hx := h x (List.mem_cons_self ..)
      cases rest with
      | nil => simpa [List.intercalate] using hx
      | cons y rest =>
          have hrest := ih fun z hz => h z (List.mem_cons_of_mem _ hz)
          intro text done htext
          simp only [List.map_cons] at hrest ⊢
          simp only [List.intercalate_cons_cons, List.append_assoc, List.cons_append,
            List.nil_append]
          rw [hx _ _ (ends_cons (.inl rfl)), scan_mark rfl, hrest _ _ htext]
          simp

theorem Spells.enclose {inner : List Char} {ts : List Token} (h : Spells inner ts)
    {left right : Char} {opening closing : Token} (hleft : Token.ofMark? left = some opening)
    (hright : Token.ofMark? right = some closing) (hends : right = ']' ∨ right = '}') :
    Spells (left :: (inner ++ [right])) (opening :: (ts ++ [closing])) := by
  intro rest done _
  rw [List.cons_append, List.append_assoc, List.singleton_append, scan_mark hleft,
    h _ _ (ends_cons (.inr hends)), scan_mark hright]
  simp

theorem spells_write {d : Document} (h : d.Plain) : Spells (write d) d.tokens := by
  induction h with
  | null => exact fun rest done _ => rfl
  | bool b => cases b <;> exact fun rest done _ => rfl
  | int n hlow hhigh => exact fun rest done hrest => scan_int hlow hhigh hrest done
  | text s => exact fun rest done _ => scan_writeText s rest done
  | seq each ih =>
      rw [write, Document.tokens, writeItems_eq, Document.itemTokens_eq]
      exact (spells_intercalate ih).enclose rfl rfl (.inl rfl)
  | map each ih =>
      rw [write, Document.tokens, writeMembers_eq, Document.memberTokens_eq]
      refine (spells_intercalate fun m hm => ?_).enclose rfl rfl (.inr rfl)
      intro rest done hrest
      rw [List.append_assoc, List.cons_append, scan_writeText, scan_mark rfl, ih m hm _ _ hrest]
      simp

theorem ofText?_text {d : Document} (h : d.Plain) : Token.ofText? (text d) = some d.tokens := by
  have hscan := spells_write h [] [] nofun
  rw [List.append_nil, List.append_nil, scan, List.reverse_reverse] at hscan
  rw [Token.ofText?, text, String.toList_ofList, hscan]

def Reads (d : Document) : Prop :=
  ∀ ts (stack : List Frame), stack.length + d.depth ≤ maxDepth →
    readValue (d.tokens ++ ts) stack = readRest ts d stack

theorem Reads.rest {d : Document} (h : Reads d) {frame : Frame} {stack : List Frame} {deepest : Nat}
    (hdepth : stack.length + (deepest + 1) ≤ maxDepth) (hd : d.depth ≤ deepest) (ts : List Token) :
    readValue (d.tokens ++ ts) (frame :: stack) = readRest ts d (frame :: stack) :=
  h ts (frame :: stack) (by rw [List.length_cons]; omega)

theorem held_of_lt {stack : List Frame} {deepest : Nat}
    (h : stack.length + (deepest + 1) ≤ maxDepth) (d : Document) : held stack d = d :=
  if_pos (by omega)

theorem mapOf_some (members : List (String × Document)) :
    mapOf (members.map fun m => (some m.1, m.2)) = .map members := by
  unfold mapOf
  rw [List.mapM_map_eq_some (f := id)]
  · rw [List.map_id]
  · exact fun m _ => rfl

theorem readValue_openSeq {d : Document} {ts : List Token} {stack : List Frame} :
    readValue (.openSeq :: (d.tokens ++ ts)) stack =
      readValue (d.tokens ++ ts) (.seq [] :: stack) := by
  cases d <;> rfl

theorem readRest_items {rest : List Document} (h : ∀ e ∈ rest, Reads e) {stack : List Frame}
    (hdepth : stack.length + (Document.itemsDepth rest + 1) ≤ maxDepth) (d : Document)
    (before : List Document) (ts : List Token) :
    readRest (((rest.map Document.tokens).flatMap fun y => .comma :: y) ++ .closeSeq :: ts) d
        (.seq before :: stack) =
      readRest ts (held stack (.seq ((d :: before).reverse ++ rest))) stack := by
  induction rest generalizing d before with
  | nil => simp [readRest]
  | cons e rest ih =>
      have hrest : Document.itemsDepth rest ≤ Document.itemsDepth (e :: rest) :=
        Nat.le_max_right ..
      simp only [List.map_cons, List.flatMap_cons, List.cons_append, List.append_assoc]
      rw [readRest, (h e (List.mem_cons_self ..)).rest hdepth (Nat.le_max_left ..),
        ih (fun e he => h e (List.mem_cons_of_mem _ he)) (by omega)]
      simp

theorem readRest_members {rest : List (String × Document)} (h : ∀ m ∈ rest, Reads m.2)
    {stack : List Frame} (hdepth : stack.length + (Document.membersDepth rest + 1) ≤ maxDepth)
    (key : String) (d : Document) (before : List (String × Document)) (ts : List Token) :
    readRest (((rest.map fun m => Token.text (some m.1) :: .colon :: m.2.tokens).flatMap
        fun y => .comma :: y) ++ .closeMap :: ts) d
        (.map (before.map fun m => (some m.1, m.2)) (some key) :: stack) =
      readRest ts (held stack (.map (((key, d) :: before).reverse ++ rest))) stack := by
  induction rest generalizing key d before with
  | nil =>
      have hall := mapOf_some ((key, d) :: before).reverse
      rw [List.map_reverse, List.map_cons] at hall
      rw [List.map_nil, List.flatMap_nil, List.nil_append, List.append_nil, readRest, hall]
  | cons m rest ih =>
      have hrest : Document.membersDepth rest ≤ Document.membersDepth (m :: rest) :=
        Nat.le_max_right ..
      simp only [List.map_cons, List.flatMap_cons, List.cons_append, List.append_assoc]
      rw [readRest, (h m (List.mem_cons_self ..)).rest hdepth (Nat.le_max_left ..)]
      have hnext := ih (fun e he => h e (List.mem_cons_of_mem _ he)) (by omega) m.1 m.2
        ((key, d) :: before)
      rw [List.map_cons] at hnext
      rw [hnext]
      simp

theorem Reads.seq {items : List Document} (h : ∀ d ∈ items, Reads d) : Reads (.seq items) := by
  intro ts stack hdepth
  rw [Document.depth] at hdepth
  rw [Document.tokens, Document.itemTokens_eq]
  cases items with
  | nil => simp [List.intercalate, readValue, held_of_lt hdepth]
  | cons d rest =>
      have hrest : Document.itemsDepth rest ≤ Document.itemsDepth (d :: rest) :=
        Nat.le_max_right ..
      rw [List.map_cons, List.singleton_intercalate_cons]
      simp only [List.cons_append, List.append_assoc]
      rw [readValue_openSeq, (h d (List.mem_cons_self ..)).rest hdepth (Nat.le_max_left ..),
        List.nil_append, readRest_items (fun e he => h e (List.mem_cons_of_mem _ he)) (by omega),
        held_of_lt hdepth]
      rfl

theorem Reads.map {members : List (String × Document)} (h : ∀ m ∈ members, Reads m.2) :
    Reads (.map members) := by
  intro ts stack hdepth
  rw [Document.depth] at hdepth
  rw [Document.tokens, Document.memberTokens_eq]
  cases members with
  | nil => simp [List.intercalate, readValue, held_of_lt hdepth]
  | cons m rest =>
      have hrest : Document.membersDepth rest ≤ Document.membersDepth (m :: rest) :=
        Nat.le_max_right ..
      have hroom : stack.length + (Document.membersDepth rest + 1) ≤ maxDepth := by omega
      have hmembers := readRest_members (fun e he => h e (List.mem_cons_of_mem _ he)) hroom
        m.1 m.2 [] ts
      rw [held_of_lt hdepth] at hmembers
      rw [List.map_cons, List.singleton_intercalate_cons]
      simp only [List.cons_append, List.append_assoc]
      rw [readValue, (h m (List.mem_cons_self ..)).rest hdepth (Nat.le_max_left ..)]
      exact hmembers

theorem reads_of_plain {d : Document} (h : d.Plain) : Reads d := by
  induction h with
  | seq _ ih => exact Reads.seq ih
  | map _ ih => exact Reads.map ih
  | _ => exact fun ts stack _ => rfl

theorem read?_text {d : Document} (h : d.Plain) (hdepth : d.depth ≤ maxDepth) :
    read? (text d) = some d := by
  have hread := reads_of_plain h [] [] (by simpa using hdepth)
  rw [List.append_nil, readRest] at hread
  simp [read?, ofText?_text h, hread]

end Json

end EventContexts
