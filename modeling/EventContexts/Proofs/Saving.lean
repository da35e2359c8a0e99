import EventContexts.Proofs.Documents
import EventContexts.Schema.Config

namespace EventContexts

open Document (Returns)

variable {f : Value → Value}

namespace Document

theorem itemsReadable_of_forall {items : List Document} (h : ∀ d ∈ items, d.isReadable = true) :
    itemsReadable items = true := by
  induction items with
  | nil => rfl
  | cons d rest ih =>
      rw [itemsReadable, h d (List.mem_cons_self ..),
        ih fun e he => h e (List.mem_cons_of_mem _ he)]
      rfl

theorem membersReadable_of_forall {members : List (String × Document)}
    (h : ∀ m ∈ members, m.2.isReadable = true) : membersReadable members = true := by
  induction members with
  | nil => rfl
  | cons m rest ih =>
      rw [membersReadable, h m (List.mem_cons_self ..),
        ih fun m' hm => h m' (List.mem_cons_of_mem _ hm)]
      rfl

theorem Plain.isReadable {d : Document} (h : d.Plain) : d.isReadable = true := by
  induction h with
  | seq _ ih => exact itemsReadable_of_forall ih
  | map _ ih => exact membersReadable_of_forall ih
  | _ => rfl

theorem filter_of_not_mem {tag : String} {content : List (String × Document)}
    (h : tag ∉ content.map Prod.fst) : content.filter (fun m => m.1 == tag) = [] ∧
      content.filter (fun m => m.1 ≠ tag) = content := by
  have hne : ∀ m ∈ content, m.1 ≠ tag := fun m hm heq => h (heq ▸ List.mem_map_of_mem hm)
  exact ⟨List.filter_eq_nil_iff.2 fun m hm => by simpa using hne m hm,
    List.filter_eq_self.2 fun m hm => by simpa using hne m hm⟩

theorem member?_cons {name : String} {d : Document} {content : List (String × Document)}
    (h : name ∉ content.map Prod.fst) : member? name ((name, d) :: content) = some (some d) := by
  rw [member?, pick?, List.filter_cons_of_pos (by simp), (filter_of_not_mem h).1]

theorem filter_cons {tag : String} {d : Document} {content : List (String × Document)}
    (h : tag ∉ content.map Prod.fst) :
    ((tag, d) :: content).filter (fun m => m.1 ≠ tag) = content := by
  rw [List.filter_cons_of_neg (by simp), (filter_of_not_mem h).2]

theorem tagged?_cons (numbered : Bool) {tag name : String} {names : List String}
    {content : List (String × Document)} (hname : name ∈ names) (htag : tag ∉ content.map Prod.fst)
    (hplain : ∀ m ∈ content, m.2.Plain) :
    (Document.map ((tag, .text name) :: content)).tagged? numbered tag names =
      some (name, .map content) := by
  have hreadable := membersReadable_of_forall fun m hm => (hplain m hm).isReadable
  have hvariant : variant? numbered names (.text name) = some name := if_pos hname
  simp only [tagged?, member?_cons htag, filter_cons htag, Option.bind_eq_bind, Option.bind_some,
    hvariant, if_pos hreadable]

end Document

theorem namesToDocument_returns (names : List String) :
    Returns namesToDocument (Document.asListOf? Document.asText?) names names :=
  Document.returns_list_self fun s _ => Document.returns_text s

namespace KeyedItem

theorem returns (i : KeyedItem) : Returns toDocument ofDocument? i i := by
  obtain ⟨hplain, hread⟩ := namesToDocument_returns i.properties
  rw [Returns, ofDocument?]
  simp [toDocument, Document.fields?, Document.member?, Document.pick?, Document.asText?, hplain,
    hread]

end KeyedItem

namespace CategoryItem

def values (i : CategoryItem) : List Value := Constraint.listValues i.constraints

def mapValues (f : Value → Value) (i : CategoryItem) : CategoryItem :=
  { i with constraints := Constraint.mapListValues f i.constraints }

theorem mapValues_eq_self {i : CategoryItem} (h : ∀ v ∈ i.values, f v = v) : i.mapValues f = i := by
  rw [mapValues, Constraint.mapListValues_eq_self h]

theorem returns {i : CategoryItem} (h : ∀ v ∈ i.values, v.Kept f) :
    Returns toDocument ofDocument? i (i.mapValues f) := by
  obtain ⟨hplain, hread⟩ := Constraint.list_returns h
  rw [Returns, ofDocument?]
  simp [toDocument, Document.fields?, Document.member?, Document.pick?, Document.asText?,
    Constraint.listOfField?, Document.orDefault?, mapValues, hplain, hread]

end CategoryItem

namespace EventPattern

def values (p : EventPattern) : List Value := Constraint.listValues p.constraints

def mapValues (f : Value → Value) (p : EventPattern) : EventPattern :=
  { p with constraints := Constraint.mapListValues f p.constraints }

theorem mapValues_eq_self {p : EventPattern} (h : ∀ v ∈ p.values, f v = v) : p.mapValues f = p := by
  rw [mapValues, Constraint.mapListValues_eq_self h]

theorem members_return {p : EventPattern} (h : ∀ v ∈ p.values, v.Kept f) :
    (∀ m ∈ p.members, m.2.Plain) ∧
      ofDocument? (.map p.members.tail) = some (p.mapValues f) := by
  obtain ⟨hplain, hread⟩ := Constraint.list_returns h
  rw [ofDocument?]
  simp [members, Document.fields?, Document.member?, Document.pick?, Document.asText?,
    Constraint.listOfField?, Document.orDefault?, mapValues, hplain, hread]

theorem tagged?_members {p : EventPattern} (h : ∀ m ∈ p.members, m.2.Plain) (numbered : Bool)
    {names : List String} (hnames : "event" ∈ names) :
    (Document.map p.members).tagged? numbered "type" names =
      some ("event", .map p.members.tail) :=
  Document.tagged?_cons numbered hnames (by simp) fun m hm => h m (List.mem_cons_of_mem _ hm)

end EventPattern

namespace StartCondition

def values : StartCondition → List Value
  | .now => []
  | .event p => p.values

def mapValues (f : Value → Value) : StartCondition → StartCondition
  | .now => .now
  | .event p => .event (p.mapValues f)

theorem mapValues_eq_self {s : StartCondition} (h : ∀ v ∈ s.values, f v = v) :
    s.mapValues f = s := by
  cases s with
  | now => rfl
  | event p => rw [mapValues, EventPattern.mapValues_eq_self h]

theorem returns {s : StartCondition} (numbered : Bool) (h : ∀ v ∈ s.values, v.Kept f) :
    Returns toDocument (ofDocument? numbered) s (s.mapValues f) := by
  rw [Returns, ofDocument?]
  cases s with
  | now =>
      rw [toDocument, Document.tagged?_cons numbered (by decide) (by simp) (by simp)]
      simp [mapValues]
  | event p =>
      obtain ⟨hplain, hread⟩ := EventPattern.members_return h
      rw [toDocument, EventPattern.tagged?_members hplain numbered (by decide)]
      exact ⟨.map hplain, by simp [mapValues, hread]⟩

end StartCondition

namespace EndCondition

def values : EndCondition → List Value
  | .event p => p.values
  | .after _ => []

def mapValues (f : Value → Value) : EndCondition → EndCondition
  | .event p => .event (p.mapValues f)
  | .after duration => .after duration

theorem mapValues_eq_self {e : EndCondition} (h : ∀ v ∈ e.values, f v = v) :
    e.mapValues f = e := by
  cases e with
  | event p => rw [mapValues, EventPattern.mapValues_eq_self h]
  | after duration => rfl

theorem returns {e : EndCondition} (numbered : Bool) (h : ∀ v ∈ e.values, v.Kept f) :
    Returns toDocument (ofDocument? numbered) e (e.mapValues f) := by
  rw [Returns, ofDocument?]
  cases e with
  | event p =>
      obtain ⟨hplain, hread⟩ := EventPattern.members_return h
      rw [toDocument, EventPattern.tagged?_members hplain numbered (by decide)]
      exact ⟨.map hplain, by simp [mapValues, hread]⟩
  | after duration =>
      have hduration := (Document.returns_int64 duration).2
      rw [toDocument, Document.tagged?_cons numbered (by decide) (by simp) (by simp)]
      simp [mapValues, Document.fields?, Document.member?, Document.pick?, hduration]

end EndCondition

namespace LevelKind

theorem written_mem_names (k : LevelKind) : k.written ∈ names := by
  cases k <;> decide

theorem ofName?_written (k : LevelKind) : ofName? k.written = some k := by
  cases k <;> rfl

end LevelKind

namespace Level

def values : Level → List Value
  | .category l => l.items.flatMap CategoryItem.values
  | .episode l => l.start.values ++ l.stop.values
  | _ => []

def mapValues (f : Value → Value) : Level → Level
  | .category l => .category { l with items := l.items.map fun i => i.mapValues f }
  | .episode l => .episode { l with start := l.start.mapValues f, stop := l.stop.mapValues f }
  | l => l

theorem mapValues_eq_self {l : Level} (h : ∀ v ∈ l.values, f v = v) : l.mapValues f = l := by
  cases l with
  | category l =>
      rw [mapValues, List.map_eq_self fun i hi => CategoryItem.mapValues_eq_self fun v hv =>
        h v (List.mem_flatMap.2 ⟨i, hi, hv⟩)]
  | episode l =>
      rw [mapValues, StartCondition.mapValues_eq_self fun v hv => h v (List.mem_append_left _ hv),
        EndCondition.mapValues_eq_self fun v hv => h v (List.mem_append_right _ hv)]
  | _ => rfl

theorem ownMembers_return {l : Level} (numbered : Bool) (h : ∀ v ∈ l.values, v.Kept f) :
    (∀ m ∈ l.ownMembers, m.2.Plain) ∧
      ofContent? numbered l.name (.map l.ownMembers) l.kind = some (l.mapValues f) := by
  cases l with
  | keyed l =>
      have hitems : ∀ i ∈ l.items, Returns KeyedItem.toDocument KeyedItem.ofDocument? i i :=
        fun i _ => i.returns
      obtain ⟨hplain, hread⟩ := Document.returns_list_self hitems
      simp only [ofContent?, kind]
      simp [ownMembers, mapValues, name, Document.fields?, Document.member?, Document.pick?, hread]
      simpa using hplain
  | category l =>
      have hitems : ∀ i ∈ l.items, Returns CategoryItem.toDocument CategoryItem.ofDocument? i
          (i.mapValues f) :=
        fun i hi => CategoryItem.returns fun v hv => h v (List.mem_flatMap.2 ⟨i, hi, hv⟩)
      obtain ⟨hplain, hread⟩ := Document.returns_list hitems
      simp only [ofContent?, kind]
      simp [ownMembers, mapValues, name, Document.fields?, Document.member?, Document.pick?,
        Document.asText?, hread]
      simpa using hplain
  | hash l =>
      have hgranularity := (Document.returns_int64 l.granularity).2
      simp only [ofContent?, kind]
      simp [ownMembers, mapValues, name, Document.fields?, Document.member?, Document.pick?,
        Document.asText?, Document.orDefault?, Document.asBool?, hgranularity]
  | episode l =>
      obtain ⟨hstart, hreadStart⟩ :=
        StartCondition.returns numbered fun v hv => h v (List.mem_append_left _ hv)
      obtain ⟨hstop, hreadStop⟩ :=
        EndCondition.returns numbered fun v hv => h v (List.mem_append_right _ hv)
      simp only [ofContent?, kind]
      simp [ownMembers, mapValues, name, Document.fields?, Document.member?, Document.pick?,
        Document.orDefault?, Document.asBool?, hstart, hstop, hreadStart, hreadStop]
  | temporal l =>
      have hstart := (Document.returns_int64 l.start).2
      have hstop := (Document.returns_int64 l.stop).2
      simp only [ofContent?, kind]
      simp [ownMembers, mapValues, name, Document.fields?, Document.member?, Document.pick?, hstart,
        hstop]

theorem returns {l : Level} (numbered : Bool) (h : ∀ v ∈ l.values, v.Kept f) :
    Returns toDocument (ofDocument? numbered) l (l.mapValues f) := by
  obtain ⟨hplain, hread⟩ := ownMembers_return numbered h
  have hname : "name" ∉ (("kind", Document.text l.kind.written) :: l.ownMembers).map Prod.fst := by
    cases l <;> simp [ownMembers]
  have hkind : "kind" ∉ l.ownMembers.map Prod.fst := by
    cases l <;> simp [ownMembers]
  have htagged := Document.tagged?_cons numbered l.kind.written_mem_names hkind hplain
  refine ⟨by simpa [toDocument] using hplain, ?_⟩
  rw [toDocument, ofDocument?, Document.member?_cons hname, Document.filter_cons hname]
  simp [Document.asText?, htagged, LevelKind.ofName?_written, hread]

end Level

namespace Options

theorem returns {o : Options} (h : ∀ n ∈ o.limit, n < UInt64.size) :
    Returns toDocument ofDocument? o o := by
  have hlimit : ∀ n ∈ o.limit, Returns (fun n : Nat => .int n) readLimit? n n := by
    intro n hn
    refine ⟨Document.plain_nat (h n hn), ?_⟩
    rw [readLimit?, Document.asIntIn?_nat (h n hn), Option.map_some, Int.toNat_natCast]
  obtain ⟨hplain, hread⟩ := Document.returns_optional hlimit nofun
  rw [Returns, ofDocument?]
  simp [toDocument, Document.fields?, Document.member?, Document.pick?, Document.orDefault?,
    Document.asBool?, hplain, hread]

end Options

theorem Logging.returns (l : Logging) : Returns toDocument ofDocument? l l := by
  rw [Returns, ofDocument?]
  simp [toDocument, Document.fields?, Document.member?, Document.pick?, Document.orDefault?,
    Document.asText?]

namespace Config

def values (c : Config) : List Value := c.levels.flatMap Level.values

def mapValues (f : Value → Value) (c : Config) : Config :=
  { c with levels := c.levels.map fun l => l.mapValues f }

theorem mapValues_eq_self {c : Config} (h : ∀ v ∈ c.values, f v = v) : c.mapValues f = c := by
  rw [mapValues, List.map_eq_self fun l hl => Level.mapValues_eq_self fun v hv =>
    h v (List.mem_flatMap.2 ⟨l, hl, hv⟩)]

theorem returns {c : Config} (numbered : Bool) (h : ∀ v ∈ c.values, v.Kept f)
    (hlimit : ∀ n ∈ c.options.limit, n < UInt64.size) :
    Returns toDocument (ofDocument? numbered) c (c.mapValues f) := by
  have hlevels : ∀ l ∈ c.levels,
      Returns Level.toDocument (Level.ofDocument? numbered) l (l.mapValues f) :=
    fun l hl => Level.returns numbered fun v hv => h v (List.mem_flatMap.2 ⟨l, hl, hv⟩)
  obtain ⟨hplain, hread⟩ := Document.returns_list hlevels
  obtain ⟨hoptions, hreadOptions⟩ := Options.returns hlimit
  obtain ⟨hlogging, hreadLogging⟩ := c.logging.returns
  rw [Returns, ofDocument?]
  simp [toDocument, Document.fields?, Document.member?, Document.pick?, Document.orDefault?,
    Document.asText?, mapValues, hread, hoptions, hreadOptions, hlogging, hreadLogging]
  simpa using hplain

end Config

namespace Json

def Saves {α : Type} (write : α → Document) (read? : Document → Option α) (a b : α) : Prop :=
  (Json.read? (text (write a))).bind read? = some b

theorem saves_of_returns {α : Type} {write : α → Document} {read? : Document → Option α} {a b : α}
    (h : Returns write read? a b) (hdepth : (write a).depth < 128) : Saves write read? a b := by
  rw [Saves, read?_text h.1 (Nat.le_of_lt_succ hdepth), Option.bind_some, h.2]

/-- Up to 127 containers deep, what is saved reads back with integers for time stamps, and as it was
where there are none. -/
theorem saved_reads_back :
    (∀ as : List Assignment, (∀ v ∈ Assignment.listValues as, v.Distinct ∧ v.Floatless) →
      (Assignment.listToDocument as).depth < 128 →
      Saves Assignment.listToDocument Assignment.listOfDocument? as
          (Assignment.mapListValues Value.timeless as) ∧
        ((∀ v ∈ Assignment.listValues as, v.Undated) →
          Saves Assignment.listToDocument Assignment.listOfDocument? as as)) ∧
    ∀ (numbered : Bool) (c : Config), (∀ v ∈ c.values, v.Distinct ∧ v.Floatless) →
      (∀ n ∈ c.options.limit, n < UInt64.size) → c.toDocument.depth < 128 →
      Saves Config.toDocument (Config.ofDocument? numbered) c (c.mapValues Value.timeless) ∧
        ((∀ v ∈ c.values, v.Undated) →
          Saves Config.toDocument (Config.ofDocument? numbered) c c) := by
  constructor
  · intro as hvalues hdepth
    have hkept : ∀ v ∈ Assignment.listValues as, v.Kept Value.timeless :=
      fun v hv => Value.returns (hvalues v hv).1 (hvalues v hv).2
    have hsaved := saves_of_returns (Assignment.list_returns hkept) hdepth
    refine ⟨hsaved, fun hundated => ?_⟩
    rwa [Assignment.mapListValues_eq_self fun v hv => Value.timeless_eq_self (hundated v hv)]
      at hsaved
  · intro numbered c hvalues hlimit hdepth
    have hkept : ∀ v ∈ c.values, v.Kept Value.timeless :=
      fun v hv => Value.returns (hvalues v hv).1 (hvalues v hv).2
    have hsaved := saves_of_returns (Config.returns numbered hkept hlimit) hdepth
    refine ⟨hsaved, fun hundated => ?_⟩
    rwa [Config.mapValues_eq_self fun v hv => Value.timeless_eq_self (hundated v hv)] at hsaved

def recovered (since : Value) : List Assignment :=
  [{ key := .keyed [.str "a \"b\" \\ \n \x01 é😀", since,
       .map [("", .array [.null, .bool true]), ("[1,2]", .int 9223372036854775807)]],
     children :=
       [{ key := .episode (-9223372036854775808) 18446744073709551615,
          partition := some 4294967295 }] }]

def declared : Config :=
  { name := "say \"\t\"",
    levels :=
      [.category
         { name := "name", eventType := "Page",
           items := [{ label := "kind", constraints := [⟨"load", .range .null (.int (-1))⟩] }] },
       .episode
         { name := "type", start := .event { eventType := "now" }, stop := .after 0 }],
    options := { limit := some 18446744073709551615 } }

theorem saved_reads_back_escaped :
    let stamped := recovered (.timestamp (-9223372036854775808))
    ((∀ v ∈ Assignment.listValues stamped, v.Distinct ∧ v.Floatless) ∧
      (Assignment.listToDocument stamped).depth = 8 ∧
      Saves Assignment.listToDocument Assignment.listOfDocument? stamped
        (recovered (.int (-9223372036854775808)))) ∧
    (∀ v ∈ declared.values, (v.Distinct ∧ v.Floatless) ∧ v.Undated) ∧
      (∀ n ∈ declared.options.limit, n < UInt64.size) ∧ declared.toDocument.depth = 9 ∧
      Saves Config.toDocument (Config.ofDocument? false) declared declared := by
  intro stamped
  have hstamped : ∀ v ∈ Assignment.listValues stamped, v.Distinct ∧ v.Floatless := by
    simp [stamped, recovered, Assignment.listValues, Assignment.values, Key.values, Value.Distinct,
      Value.EntriesDistinct, Value.ItemsDistinct, Value.Floatless, Value.parts, Value.itemParts,
      Value.entryParts]
  have hvalues : declared.values = [.null, .int (-1)] := rfl
  have hdeclared : ∀ v ∈ declared.values, (v.Distinct ∧ v.Floatless) ∧ v.Undated := by
    simp [hvalues, Value.Distinct, Value.Floatless, Value.Undated, Value.parts]
  have hlimit : ∀ n ∈ declared.options.limit, n < UInt64.size := by
    simp [declared]
  have hassignments := saved_reads_back.1 stamped hstamped (by decide)
  have hconfig :=
    saved_reads_back.2 false declared (fun v hv => (hdeclared v hv).1) hlimit (by decide)
  exact ⟨⟨hstamped, by decide, hassignments.1⟩, hdeclared, hlimit, by decide,
    hconfig.2 fun v hv => (hdeclared v hv).2⟩

end Json

end EventContexts
