import EventContexts.Proofs.Inference
import EventContexts.Proofs.Ledger
import EventContexts.Proofs.Narrowing
import EventContexts.Proofs.Staleness
import EventContexts.Proofs.Stops

namespace EventContexts

open Act

theorem PropertyType.fieldsAccept_iff {fields : List (String × PropertyType)}
    {entries : List (String × Value)} :
    fieldsAccept fields entries = true ↔
      ∀ f ∈ fields, ∀ v, Entries.find? f.1 entries = some v → f.2.accepts v = true := by
  induction fields with
  | nil => simp [fieldsAccept]
  | cons f rest ih => rw [fieldsAccept_cons, ih, List.forall_mem_cons]

namespace Level

variable {l m : Level} {key : Key} {captured : Props} {k : String} {v : Value}

/-- Whatever is shown under a name is of one type, whichever level shows it. -/
def shownType (name : String) : PropertyType :=
  if name = "label" then .str
  else if name = "startTime" ∨ name = "endTime" then .timestamp
  else .any

theorem key_ne (i : Nat) {name : String} (h : name.toList.head? ≠ some 'k') :
    "key" ++ toString i ≠ name := by
  rintro rfl
  exact h (by simp [String.toList_append])

theorem shownType_key (i : Nat) : shownType ("key" ++ toString i) = .any := by
  have hlabel : "key" ++ toString i ≠ "label" := key_ne i (by decide)
  have hstart : "key" ++ toString i ≠ "startTime" := key_ne i (by decide)
  have hend : "key" ++ toString i ≠ "endTime" := key_ne i (by decide)
  rw [shownType, if_neg hlabel, if_neg (not_or.2 ⟨hstart, hend⟩)]

theorem Shown.accepted (h : Shown k v) : (shownType k).accepts v = true := by
  cases h with
  | key i v =>
      rw [shownType_key]
      cases v <;> rfl
  | label label => rfl
  | startTime ms => rfl
  | endTime h => exact h
  | initiator v => cases v <;> rfl

theorem declared_type {f : String × PropertyType} (h : f ∈ l.declaredProperties) :
    f.2 = shownType f.1 ∧ f.1 ≠ "name" ∧ f.1 ≠ "id" := by
  have htimes : ∀ f ∈ [("startTime", PropertyType.timestamp), ("endTime", .timestamp)],
      f.2 = shownType f.1 ∧ f.1 ≠ "name" ∧ f.1 ≠ "id" := by
    simp only [List.mem_cons, List.not_mem_nil, or_false]
    rintro _ (rfl | rfl) <;> exact ⟨rfl, by decide⟩
  cases l with
  | keyed l =>
      obtain ⟨i, -, rfl⟩ := List.mem_map.1 h
      exact ⟨(shownType_key _).symm, key_ne _ (by decide), key_ne _ (by decide)⟩
  | category l =>
      obtain rfl := List.mem_singleton.1 h
      exact ⟨rfl, by decide⟩
  | hash l => cases h
  | episode l =>
      rcases List.mem_append.1 h with h | h
      · exact htimes f h
      · split at h
        · cases h
        · obtain rfl := List.mem_singleton.1 h
          exact ⟨rfl, by decide⟩
  | temporal l => exact htimes f h

theorem record_accepts :
    (PropertyType.record l.declaredProperties).accepts
      (Value.ofProps (m.propertiesOf key captured)) = true := by
  refine PropertyType.fieldsAccept_iff.2 fun f hf v hv => ?_
  rw [(declared_type hf).1]
  exact (shown_of_find? hv).accepted

end Level

/-- The event that is shown to an instance has the name of the context and the number of the
partition, and is of the type that the descriptor tells. -/
structure Descriptor.Conforms (d : Descriptor) (r : StartRequest) : Prop where
  name : r.builtin.get? "name" = some (.str d.name)
  id : r.builtin.get? "id" = some (.int (Int64.ofNat r.partition.toNat))
  type : d.propertyType.accepts r.builtin.toValue = true

namespace Declaration

variable {d : Declaration} {path : Path} {f : String × Value} {r : StartRequest}

def NamesApart (d : Declaration) : Prop :=
  1 < d.depth → ∀ l ∈ d.levels, l.name ≠ "name" ∧ l.name ≠ "id"

instance : Decidable d.NamesApart := inferInstanceAs (Decidable (_ → _))

def fieldTypes (d : Declaration) : List (String × PropertyType) :=
  if 1 < d.depth then d.levels.map fun l => (l.name, .record l.declaredProperties)
  else d.outer.declaredProperties

theorem propertyType_eq : (Descriptor.ofLevels d.name d.levels).propertyType =
    .record (("name", .str) :: ("id", .int) :: d.fieldTypes) := by
  have hmap : (Descriptor.ofLevels d.name d.levels).levels.map
        (fun l => (l.name, PropertyType.record l.properties)) =
      d.levels.map fun l => (l.name, .record l.declaredProperties) := by
    rw [Descriptor.ofLevels, List.map_map]
    rfl
  rw [Descriptor.propertyType, fieldTypes, depth, ← hmap]
  simp only [isNested_iff]
  rfl

theorem fields_ne (h : d.NamesApart) (hf : f ∈ d.fields path) : f.1 ≠ "name" ∧ f.1 ≠ "id" := by
  rw [fields] at hf
  split at hf
  · next hnested =>
      obtain ⟨⟨l, props⟩, hl, rfl⟩ := List.mem_map.1 hf
      exact h hnested l (List.of_mem_zip hl).1
  · obtain ⟨props, hprops, hmem⟩ := List.mem_flatMap.1 hf
    obtain ⟨step, -, rfl⟩ := List.mem_map.1 hprops
    exact Level.propertiesOf_ne (List.mem_map_of_mem hmem)

theorem fieldTypes_ne (h : d.NamesApart) {t : String × PropertyType} (ht : t ∈ d.fieldTypes) :
    t.1 ≠ "name" ∧ t.1 ≠ "id" := by
  rw [fieldTypes] at ht
  split at ht
  · next hnested =>
      obtain ⟨l, hl, rfl⟩ := List.mem_map.1 ht
      exact h hnested l hl
  · exact (Level.declared_type ht).2

theorem field_accepted {t : String × PropertyType} {v : Value} (ht : t ∈ d.fieldTypes)
    (hv : (t.1, v) ∈ d.fields path) : t.2.accepts v = true := by
  rw [fieldTypes] at ht
  rw [fields] at hv
  split at ht
  · next hnested =>
      rw [if_pos hnested] at hv
      obtain ⟨l, -, rfl⟩ := List.mem_map.1 ht
      obtain ⟨⟨m, props⟩, hm, heq⟩ := List.mem_map.1 hv
      obtain ⟨-, rfl⟩ := Prod.mk.inj heq
      obtain ⟨step, -, rfl⟩ := List.mem_map.1 (List.of_mem_zip hm).2
      exact Level.record_accepts
  · next hflat =>
      rw [if_neg hflat] at hv
      obtain ⟨props, hprops, hmem⟩ := List.mem_flatMap.1 hv
      obtain ⟨step, -, rfl⟩ := List.mem_map.1 hprops
      rw [(Level.declared_type ht).1]
      exact (Level.shown_of_find? (OrderedMap.find?_eq_some.2 hmem)).accepted

theorem conforms_of_builtin (h : d.NamesApart) (hr : r.builtin =
      (Descriptor.ofLevels d.name d.levels).builtin r.partition path.properties) :
    (Descriptor.ofLevels d.name d.levels).Conforms r := by
  have hdata := (congrArg Event.data hr).trans data_builtin
  have hid : "id" ∉ (d.fields path).map Prod.fst := by
    rintro hmem
    obtain ⟨f, hf, heq⟩ := List.mem_map.1 hmem
    exact (fields_ne h hf).2 heq
  have hname : "name" ∉ (("id", toValue r.partition) :: d.fields path).map Prod.fst := by
    rintro hmem
    obtain ⟨f, hf, heq⟩ := List.mem_map.1 hmem
    rcases List.mem_cons.1 hf with rfl | hf
    · exact absurd heq (by decide : "id" ≠ "name")
    · exact (fields_ne h hf).1 heq
  have hget : r.builtin.get? "name" = some (.str d.name) := by
    rw [Event.get?, hdata]
    exact Entries.find?_foldl_of_not_mem hname
  have hget' : r.builtin.get? "id" = some (toValue r.partition) := by
    rw [Event.get?, hdata]
    exact Entries.find?_foldl_of_not_mem hid
  refine ⟨hget, hget', ?_⟩
  rw [propertyType_eq]
  refine PropertyType.fieldsAccept_iff.2 fun t ht v hv => ?_
  have hv : r.builtin.get? t.1 = some v := hv
  rcases List.mem_cons.1 ht with rfl | ht
  · obtain rfl := Option.some.inj (hget.symm.trans hv)
    rfl
  rcases List.mem_cons.1 ht with rfl | ht
  · obtain rfl := Option.some.inj (hget'.symm.trans hv)
    rfl
  rw [Event.get?, hdata] at hv
  obtain ⟨hne, hne'⟩ := fieldTypes_ne h ht
  rcases List.mem_cons.1 (OrderedMap.mem_of_find?_ofPairs hv) with heq | hmem
  · exact absurd (congrArg Prod.fst heq) hne
  rcases List.mem_cons.1 hmem with heq | hmem
  · exact absurd (congrArg Prod.fst heq) hne'
  · exact field_accepted ht hmem

end Declaration

theorem Books.Stops.started {runtime : Runtime} {statementLevel : Bool} {agents : List Agent}
    {b : Books} {o : Except Error Unit × Books} (h : Stops runtime statementLevel agents b o) :
    o.2.trace.started = b.trace.started := by
  have hnone : Trace.started (agents.map fun a => .stopped a statementLevel) = [] :=
    List.filterMap_eq_nil_iff.2 fun x hx => by
      obtain ⟨a, -, rfl⟩ := List.mem_map.1 hx
      rfl
  rw [h.trace, Trace.started_append, hnone, List.append_nil]

namespace Books

def Briefed (d : Descriptor) (b : Books) : Prop :=
  ∀ r ∈ b.trace.started, ∃ path : Path, r.builtin = d.builtin r.partition path.properties

variable {d : Descriptor} {b b' : Books} {env : Setting} {path : Path} {p : UInt32}
  {recovering : Bool} {s : Statement} {termination : Option Props} {statementLevel : Bool}

namespace Briefed

theorem congr (h : b.Briefed d) (htrace : b'.trace.started = b.trace.started) : b'.Briefed d := by
  rw [Briefed, htrace]
  exact h

theorem stopAgents {agents : List Agent} (h : b.Briefed d) :
    (env.stopAgents termination statementLevel agents b).2.Briefed d :=
  h.congr (Stops.stopAgents env termination agents b).started

theorem closePartition {leaf : UInt32 × List Agent} (h : b.Briefed d) :
    (env.closePartition termination statementLevel leaf b).2.Briefed d :=
  h.congr (Stops.closePartition env termination leaf b).started

theorem closeAll {below : List Level} {node : Node (Children below)} (h : b.Briefed d) :
    (env.closeAll termination statementLevel below node b).2.Briefed d :=
  h.congr (Stops.closeAll env termination node [] b).started

theorem closeChild {below : List Level} {k : UInt32} {a : Child below} (h : b.Briefed d) :
    (env.closeChild termination (k, a) b).2.Briefed d := by
  cases below with
  | nil => exact h.closePartition.congr rfl
  | cons m below => exact h.closeAll

theorem offerAll {e : Event} {agents : List Agent} (h : b.Briefed d) :
    (EventContexts.offerAll e agents b).2.Briefed d := by
  induction agents generalizing b with
  | nil => exact h
  | cons a rest ih =>
      have hoffer : (a.offer e b).2.Briefed d := by
        rw [Agent.offer]
        split
        · exact h.congr (by simp [Books.record, Action.started?])
        · exact h
      rw [EventContexts.offerAll]
      exact ih hoffer

theorem claim {assigned : Option UInt32} : Keeps (Briefed d) (env.claim assigned) := by
  intro b h
  cases assigned with
  | some p =>
      rw [Setting.claim]
      split <;> exact h.congr rfl
  | none =>
      rw [Setting.claim]
      split <;> exact h.congr rfl

variable (henv : env.descriptor = d)

include henv

theorem startAgent : Keeps (Briefed d) (env.startAgent path p recovering s) := by
  intro b h
  rw [Setting.startAgent]
  split
  · intro r hr
    rw [Books.count, Books.record, Trace.started_concat] at hr
    rcases List.mem_append.1 hr with hr | hr
    · exact h r hr
    · obtain rfl := List.mem_singleton.1 hr
      exact ⟨path, congrArg (Descriptor.builtin · p path.properties) henv⟩
  · exact h.congr (by simp [Books.record, Action.started?])

theorem startAgents {ss : List Statement} {started : List Agent} :
    Keeps (Briefed d) (env.startAgents path p recovering ss started) := by
  induction ss generalizing started with
  | nil => exact fun b h => h
  | cons s rest ih =>
      intro b h
      have hstart : Ends _ _ (env.startAgent path p recovering s b) := startAgent henv b h
      simp only [Setting.startAgents]
      split
      · next a b' heq => exact ih b' (hstart.congr heq)
      · next e b' heq => exact stopAgents (hstart.congr heq)

end Briefed

end Books

namespace Setting

variable {env : Setting} {d : Descriptor} {below : List Level} {b : Books}

def Briefing (d : Descriptor) (_ : Unit) (below : List Level) (_ : Post)
    (s : Children below × Books) : Prop :=
  s.2.Briefed d

variable (henv : env.descriptor = d)

include henv

theorem startPartition_briefing {path : Path} {owner : Controller} {post : Post} {r : Request} :
    Keeps (Briefing d () [] post) (env.startPartition owner path r) := by
  rintro ⟨partitions, b⟩ (hb : b.Briefed d)
  simp only [startPartition]
  split
  · exact hb
  · have hclaim : Ends _ _ (env.claim r.assigned b) := Books.Briefed.claim b hb
    split
    · next e b₁ heq => exact hclaim.congr heq
    · next p b₁ heq =>
        have hstart : Ends _ _ (env.startAgents (path ++ [⟨owner.level, r.key, capture r⟩]) p
            r.recovered.isSome env.statements [] b₁) :=
          Books.Briefed.startAgents henv b₁ (hclaim.congr heq)
        split
        · next e b₂ heq =>
            have hb₂ : b₂.Briefed d := hstart.congr heq
            exact hb₂.congr rfl
        · next agents b₂ heq =>
            have hb₂ : b₂.Briefed d := hstart.congr heq
            cases htrigger : r.trigger with
            | none => exact hb₂.congr rfl
            | some e => exact hb₂.offerAll.congr rfl

omit henv in
theorem endChild_briefing {post : Post} {id : ControllerId} {h : Handle}
    {termination : Option Props} :
    Keeps (Briefing d () below post) (env.endChild termination below id h) := by
  rintro ⟨children, b⟩ (hb : b.Briefed d)
  by_cases hlive : ∃ e ∈ children.table.entries, h = e.2.handle id e.1
  · obtain ⟨⟨k, a⟩, hmem, rfl⟩ := hlive
    rw [endChild_live hmem]
    exact ends_of_state hb.closeChild
  · rw [endChild_stale hlive]
    exact hb

theorem briefing_upkeep : env.Upkeep (fun _ _ => True) (Briefing d) where
  suits _ := trivial
  number hb := hb
  partition _ := startPartition_briefing henv
  sprout _ hb _ := ⟨(), hb, fun _ _ _ hb' => ⟨hb', Books.Briefed.closeAll hb'⟩⟩
  stop := endChild_briefing
  descend hb _ := ⟨(), hb, fun _ _ _ hb' => hb'⟩
  offer hb _ := Books.Briefed.offerAll hb

theorem startEverywhere_briefed {s : Statement} {root : Node (Children below)} (h : b.Briefed d) :
    (env.startEverywhere s below root b).2.Briefed d := by
  let W (w : List Agent × Books) : Prop := w.2.Briefed d
  have hvisit : ∀ ℓ w, W w → Ends (fun r w => r.generation = ℓ.running.generation ∧ W w)
      (fun _ => W) (env.startIn s ℓ w) := by
    rintro ℓ ⟨started, b'⟩ hb'
    have hstart : Ends _ _ (env.startAgent ℓ.path ℓ.partition false s b') :=
      Books.Briefed.startAgent henv b' hb'
    rw [startIn]
    split
    · next a b'' heq => exact ⟨rfl, hstart.congr heq⟩
    · next e b'' heq => exact hstart.congr heq
  have hready : W ([], b) := h
  have hdone := Node.traverseLeaves_handles hvisit root [] hready
  simp only [startEverywhere]
  split
  · next root' started b' heq => exact (hdone.congr heq).2
  · next e started b' heq =>
      have hb' : b'.Briefed d := hdone.congr heq
      exact hb'.stopAgents

omit henv in
theorem stopEverywhere_briefed {id : StatementId} {root : Node (Children below)}
    (h : b.Briefed d) : (env.stopEverywhere id below root b).2.2.Briefed d := by
  let W (w : Except Error Unit × Books) : Prop := w.2.Briefed d
  have hvisit : ∀ ℓ w, W w → Ends (fun r w => r.generation = ℓ.running.generation ∧ W w)
      (fun _ => W) (env.stopIn id ℓ w) := fun ℓ w hw => ⟨rfl, Books.Briefed.stopAgents hw⟩
  have hready : W (.ok (), b) := h
  have hdone := Node.traverseLeaves_handles hvisit root [] hready
  simp only [stopEverywhere]
  split
  · next root' outcome b' heq => exact (hdone.congr heq).2
  · next e _ _ => exact e.elim

end Setting

namespace Path

variable {p : Path}

theorem find?_shown (hnested : 1 < p.length) (hnames : (p.map fun step => step.level.name).Nodup)
    {step : Step} (hstep : step ∈ p) {es : List (String × Value)} :
    Entries.find? step.level.name (p.shown.foldl (fun es f => Entries.insert f.1 f.2 es) es) =
      some (Value.ofProps (step.level.propertiesOf step.key step.properties)) := by
  refine Entries.find?_foldl_of_mem (nodup_shown hnames) ?_
  rw [shown, if_pos hnested, List.map_map]
  exact List.mem_map_of_mem hstep

end Path

namespace Context

variable {c : Context} {runtime : Runtime} {shape : Descriptor} {ss : List Statement}
  {strict : Prop}

theorem Sound.briefing (hc : c.Sound strict) (h : c.books.Briefed c.descriptor) :
    c.Tends (Setting.Briefing c.descriptor) () c.descriptor c.statements where
  descriptor := rfl
  statements := rfl
  idle _ _ := h
  tree _ hroot := ⟨hc.rootLevel hroot, h⟩

theorem Tends.briefed {d : Descriptor} (h : c.Tends (Setting.Briefing d) () shape ss) :
    c.books.Briefed d := by
  cases hroot : c.root with
  | none => exact h.idle hroot ⟨0⟩
  | some root => exact (h.tree root hroot).2

theorem teardown_briefed {d : Descriptor} (h : c.books.Briefed d) {statementLevel : Bool} :
    (teardown runtime statementLevel c).2.books.Briefed d := by
  have hclear {b : Books} (hb : b.Briefed d) :
      { b with ids := b.ids.clear }.updateGauge.Briefed d := hb.congr rfl
  simp only [teardown]
  split
  · exact hclear h.closeAll
  · exact hclear h

theorem attach_briefed (hc : c.Sound strict) (h : c.books.Briefed c.descriptor) {s : Statement} :
    (attach runtime s c).2.books.Briefed c.descriptor := by
  have hidle : (c.withStatement s).Tends (Setting.Briefing c.descriptor) () c.descriptor
      (c.withStatement s).statements := ⟨rfl, rfl, fun _ _ => h, (hc.briefing h).tree⟩
  have hawaken (hroot : c.root = none) : Ends _ _ (awaken runtime (c.withStatement s)) :=
    awaken_tends (fun env henv _ => Setting.briefing_upkeep henv) hidle hroot
  have hcase := attaches runtime s c
  generalize attach runtime s c = o at hcase ⊢
  cases hcase with
  | taken | unfit => exact h
  | @joined root _ _ _ _ heq | @unjoined root _ _ _ _ heq =>
      have hstart : (((c.withStatement s).setting runtime).startEverywhere s _ root
          c.books).2.Briefed c.descriptor := Setting.startEverywhere_briefed rfl h
      rw [heq] at hstart
      exact hstart
  | awoken _ hroot heq =>
      obtain ⟨root, books, rfl, -, hbooks⟩ := (hawaken hroot).congr heq
      exact hbooks
  | unawoken _ hroot heq =>
      obtain ⟨root, books, rfl, -, hbooks⟩ := (hawaken hroot).congr heq
      have hbooks : books.Briefed c.descriptor := hbooks
      exact teardown_briefed (c := { c with root := some root, books }.withoutStatement s.id) hbooks

theorem detach_briefed {d : Descriptor} (h : c.books.Briefed d) {id : StatementId} :
    (detach runtime id c).2.books.Briefed d := by
  have hcase := detaches runtime id c
  generalize detach runtime id c = o at hcase ⊢
  cases hcase with
  | unknown | idle => exact h
  | last => exact teardown_briefed (c := c.withoutStatement id) h
  | @departed root _ _ _ _ _ _ heq =>
      have hstop : (((c.withoutStatement id).setting runtime).stopEverywhere id _ root
          c.books).2.2.Briefed d := Setting.stopEverywhere_briefed h
      rw [heq] at hstop
      exact hstop

theorem perform_briefed (hc : c.Sound strict) (h : c.books.Briefed c.descriptor)
    {op : Operation} : (perform runtime op c).2.books.Briefed c.descriptor := by
  have hinner (hop : op.Inner) : (perform runtime op c).2.books.Briefed c.descriptor := by
    have hkeeps : Keeps (Tends (Setting.Briefing c.descriptor) () c.descriptor c.statements)
        (perform runtime op) :=
      tends_perform (fun env henv _ => Setting.briefing_upkeep henv) hop fun _ _ _ => trivial
    exact (hkeeps c (hc.briefing h)).state.briefed
  cases op with
  | attach s => exact attach_briefed hc h
  | detach id => exact detach_briefed h
  | _ => exact hinner trivial

theorem Reachable.briefed (h : Reachable (fun _ => True) c) : c.books.Briefed c.descriptor := by
  induction h with
  | new => exact nofun
  | step runtime op hreach _ ih =>
      have hsound : Sound False _ := hreach.sound False.elim
      rw [descriptor, perform_frame.1]
      exact perform_briefed hsound ih

theorem builtin_of_taken (h : Reachable (fun _ => True) c) (htaken : ¬ c.declaration.NamesApart)
    {ℓ : Leaf} (hℓ : ℓ ∈ c.leaves) {a : Agent} (ha : a ∈ ℓ.running.agents) :
    ∃ props : Props, a.request.builtin.get? "name" = some (Value.ofProps props) ∨
      a.request.builtin.get? "id" = some (Value.ofProps props) := by
  obtain ⟨hnested, hlevel⟩ := Classical.not_imp.1 htaken
  push Not at hlevel
  obtain ⟨l, hl, hname⟩ := hlevel
  have htold := told_of_path h hℓ ha
  have hlevels := htold.levels
  rw [← hlevels] at hl
  obtain ⟨step, hstep, rfl⟩ := List.mem_map.1 hl
  have hnames : (ℓ.path.map fun step => step.level.name).Nodup := by
    have hdistinct : (c.declaration.levels.map Level.name).Nodup := c.declaration.distinct
    rwa [← hlevels, List.map_map] at hdistinct
  have hlong : 1 < ℓ.path.length := by
    rwa [Declaration.depth, ← hlevels, List.length_map] at hnested
  have hshown : a.request.builtin.get? step.level.name =
      some (Value.ofProps (step.level.propertiesOf step.key step.properties)) := by
    rw [Event.get?, htold.data]
    exact Path.find?_shown hlong hnames hstep
  refine ⟨step.level.propertiesOf step.key step.properties, ?_⟩
  by_cases hne : step.level.name = "name"
  · exact .inl (hne ▸ hshown)
  · exact .inr (hname hne ▸ hshown)

/-- Every instance is shown the name of the context, the number of its partition and an event of the
type that the descriptor tells, unless a level takes the name of one of the first two for itself.
Where one does, no instance in a live partition is shown an event of that type. -/
theorem builtin_conforms (h : Reachable (fun _ => True) c) :
    (c.declaration.NamesApart → ∀ r ∈ c.books.trace.started, c.descriptor.Conforms r) ∧
    (¬ c.declaration.NamesApart → ∀ ℓ ∈ c.leaves, ∀ a ∈ ℓ.running.agents,
      c.descriptor.propertyType.accepts a.request.builtin.toValue = false) := by
  refine ⟨fun hapart r hr => ?_, fun htaken ℓ hℓ a ha => ?_⟩
  · obtain ⟨path, hpath⟩ := h.briefed r hr
    exact Declaration.conforms_of_builtin hapart hpath
  · obtain ⟨props, hprops⟩ := builtin_of_taken h htaken hℓ ha
    rw [Bool.eq_false_iff]
    intro haccepts
    rw [descriptor, Declaration.propertyType_eq] at haccepts
    have hall := PropertyType.fieldsAccept_iff.1 haccepts
    have hmem : ("id", PropertyType.int) ∈
        ("name", .str) :: ("id", .int) :: c.declaration.fieldTypes :=
      List.mem_cons_of_mem _ (List.mem_cons_self ..)
    rcases hprops with hname | hid
    · exact absurd (hall _ (List.mem_cons_self ..) _ hname) nofun
    · exact absurd (hall _ hmem _ hid) nofun

def readers : Declaration :=
  { name := "readers"
    outer := .keyed { name := "name", items := [⟨"Page", ["user"]⟩] }
    inner := [.category { name := "length", eventType := "Page", items := [⟨"any", []⟩] }]
    sound := by decide
    distinct := by decide }

def reading : Context :=
  let attached := (perform .collecting (.attach seen) (Context.new readers)).2
  (perform .collecting (.process page) attached).2

theorem reachable_reading : Reachable (fun _ => True) reading :=
  .step _ _ (.step _ _ (.new ..) trivial) trivial

theorem builtin_conforms_apart :
    (joined.books.trace.started.length = 2 ∧
      ∀ r ∈ joined.books.trace.started, joined.descriptor.Conforms r) ∧
    reading.leaves.length = 1 ∧
      ∀ ℓ ∈ reading.leaves, ∀ a ∈ ℓ.running.agents,
        reading.descriptor.propertyType.accepts a.request.builtin.toValue = false :=
  ⟨⟨by decide +kernel, (builtin_conforms reachable_joined).1 (by decide)⟩,
    by decide +kernel, (builtin_conforms reachable_reading).2 (by decide)⟩

/-- The level's properties stand where the context's name was told to be. -/
theorem level_hides_name : ¬ ∀ c, Reachable (fun _ => True) c →
    ∀ r ∈ c.books.trace.started, c.descriptor.Conforms r := by
  intro h
  have hname : ¬ ∀ r ∈ reading.books.trace.started, r.builtin.get? "name" =
      some (.str readers.name) := by decide +kernel
  exact hname fun r hr => (h reading reachable_reading r hr).name

end Context

end EventContexts
