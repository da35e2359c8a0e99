import EventContexts.Proofs.Narrowing
import EventContexts.Proofs.Provenance
import EventContexts.Proofs.Strays
import EventContexts.Proofs.Tenure

namespace EventContexts

open Act

namespace Level

variable {l o : Level} {key : Key} {captured : Props}

def declaredNames (l : Level) : List String := l.declaredProperties.map Prod.fst

theorem keyName_injective : Function.Injective fun i : Nat => "key" ++ toString (i + 1) := by
  intro i j h
  have hdigits : Nat.toDigits 10 (i + 1) = Nat.toDigits 10 (j + 1) := by
    have hlist := congrArg String.toList h
    simp only [String.toList_append] at hlist
    rw [← Nat.toList_repr, ← Nat.toList_repr]
    exact List.append_cancel_left hlist
  have hsucc : i + 1 = j + 1 := calc
    i + 1 = Nat.ofDigitChars 10 (Nat.toDigits 10 (i + 1)) 0 :=
      Nat.ofDigitChars_ten_toDigits.symm
    _ = Nat.ofDigitChars 10 (Nat.toDigits 10 (j + 1)) 0 := by rw [hdigits]
    _ = j + 1 := Nat.ofDigitChars_ten_toDigits
  exact Nat.succ.inj hsucc

theorem names_keyed {kl : KeyedLevel} {values : List Value} (h : values.length = kl.arity) :
    ((keyed kl).propertiesOf (.keyed values) captured).keys = (keyed kl).declaredNames := by
  let pairs := values.mapIdx fun i v => ("key" ++ toString (i + 1), v)
  have hkeys : pairs.map Prod.fst = (List.range kl.arity).map fun i => "key" ++ toString (i + 1) :=
    List.ext_getElem (by simp [pairs, h]) (by simp [pairs])
  have hnodup : (pairs.map Prod.fst).Nodup := hkeys ▸ List.nodup_range.map keyName_injective
  have hdeclared : (keyed kl).declaredNames =
      (List.range kl.arity).map fun i => "key" ++ toString (i + 1) := by
    rw [declaredNames, declaredProperties, List.map_map]
    rfl
  rw [hdeclared, ← hkeys]
  exact OrderedMap.keys_ofPairs hnodup

theorem names_category {cl : CategoryLevel} {label : String} :
    ((category cl).propertiesOf (.category label) captured).keys = (category cl).declaredNames :=
  rfl

theorem names_hash {hl : HashLevel} :
    ((hash hl).propertiesOf key captured).keys = (hash hl).declaredNames := by
  cases key <;> rfl

theorem names_temporal {tl : TemporalLevel} :
    ((temporal tl).propertiesOf key captured).keys = (temporal tl).declaredNames := by
  cases key <;> rfl

theorem names_episode {el : EpisodeLevel} {start : Int64} {number : UInt64} :
    ((episode el).propertiesOf (.episode start number) captured).keys =
      ["startTime", "endTime"] ++
        (captured.find? initiatorTag).toList.map fun _ => initiatorTag := by
  rw [propertiesOf]
  cases captured.find? initiatorTag <;> rfl

inductive First : Level → Key → Prop
  | episode {el : EpisodeLevel} (h : el.start = .now) (start : Int64) :
      First (.episode el) (.episode start 0)

/-- A child shows what its level declares. Below the outermost level `o`, it may be the first
episode of a level that starts episodes at once, and show its initiator as well. -/
def Exposes (l o : Level) (key : Key) (captured : Props) : Prop :=
  (l.propertiesOf key captured).keys = l.declaredNames ∨ l ≠ o ∧ l.First key ∧
    (l.propertiesOf key captured).keys = l.declaredNames ++ [initiatorTag]

abbrev Shows (l o : Level) (key : Key) (captured : Props) : Prop :=
  l.flaw? = none → l.Exposes o key captured

end Level

structure Request.Exposes (l o : Level) (r : Request) : Prop where
  recovered : r.recovered.getD [] = []
  branch : l.Shows o r.key r.properties
  partition : l.Shows o r.key (Setting.capture r)

/-- Nothing is recreated, and nothing wakes the controller of the outermost level up. -/
def Manners.exposing (o : Level) : Manners where
  knows := Scheme.Bare
  asks l r := r.Exposes l o
  hands l a := a.recovered = [] ∧ (l = o → a.trigger = none)

section controllers

variable {σ α : Type} {o l : Level} {life : Lifecycle σ} {I : σ → Prop} {a : Activation}
  {e : Event} {now : Int64} {ranges : List BucketRange} {el : EpisodeLevel} {key : Key}
  {captured : Props}

theorem Scheme.Opens.names {s : Scheme} {path : UInt32} {when : Occasion}
    (h : s.Opens when key path) (hplain : when.plain) (hflaw : s.level.flaw? = none)
    (hkind : ∀ el, s.level ≠ .episode el) :
    (s.level.propertiesOf key captured).keys = s.level.declaredNames := by
  cases s with
  | keyed c =>
      obtain ⟨e, -, hkey⟩ := h.2.2 hplain
      obtain ⟨values, rfl, hlength⟩ := Level.fits_of_routes (l := .keyed c.level) hflaw hkey
      exact Level.names_keyed hlength
  | category c =>
      obtain ⟨-, index, item, -, rfl, -⟩ := h
      exact Level.names_category
  | hash c => exact Level.names_hash
  | episode c => exact absurd rfl (hkind c.level)
  | temporal c => exact Level.names_temporal

theorem Request.exposes_of_asks (hkind : ∀ el, l ≠ .episode el) :
    l.Plainly (Request.Exposes l o) := by
  rintro when s r hplain rfl hr
  exact ⟨hr.recovered hplain, fun hflaw => .inl (hr.opens.names hplain hflaw hkind),
    fun hflaw => .inl (hr.opens.names hplain hflaw hkind)⟩

namespace EpisodeController

variable {c : EpisodeController} {path : UInt32} {start : Int64} {initiator : Option Event}

theorem initiator_request : (c.request path start initiator).properties.find? initiatorTag =
    initiator.map Event.toValue := by
  cases initiator with
  | none => rfl
  | some e => exact OrderedMap.find?_insert.trans (if_pos rfl)

theorem initiator_capture : (Setting.capture (c.request path start initiator)).find? initiatorTag =
    initiator.map Event.toValue := by
  cases initiator with
  | none => rfl
  | some e => exact OrderedMap.find?_insert.trans (if_pos rfl)

theorem exposes (hcaptured : captured.find? initiatorTag = initiator.map Event.toValue)
    (h : c.level.Begins initiator ∨
      c.level.start = .now ∧ c.nextNumber = 0 ∧ (Level.episode c.level = o → initiator = none)) :
    (Level.episode c.level).Exposes o (.episode start c.nextNumber) captured := by
  have hnames : ((Level.episode c.level).propertiesOf (.episode start c.nextNumber) captured).keys =
      ["startTime", "endTime"] ++ (initiator.map Event.toValue).toList.map fun _ => initiatorTag :=
    hcaptured ▸ Level.names_episode
  have hdeclared (hstart : c.level.start = .now) :
      (Level.episode c.level).declaredNames = ["startTime", "endTime"] := by
    rw [Level.declaredNames, Level.declaredProperties, hstart]
    rfl
  cases initiator with
  | none =>
      have hnow : c.level.start = .now := h.elim id And.left
      exact .inl (hnames.trans (hdeclared hnow).symm)
  | some e =>
      rcases h with hbegins | ⟨hnow, hfirst, houter⟩
      · cases hstart : c.level.start with
        | now =>
            rw [EpisodeLevel.Begins, hstart] at hbegins
            cases hbegins
        | event pattern =>
            refine .inl (hnames.trans ?_)
            rw [Level.declaredNames, Level.declaredProperties, hstart]
            rfl
      · refine .inr ⟨fun hsame => Option.some_ne_none e (houter hsame), ?_, ?_⟩
        · rw [hfirst]
          exact .episode hnow start
        · rw [hnames, hdeclared hnow]
          rfl

theorem request_exposes (h : c.level.Begins initiator ∨
      c.level.start = .now ∧ c.nextNumber = 0 ∧ (Level.episode c.level = o → initiator = none)) :
    (c.request path start initiator).Exposes (.episode c.level) o :=
  ⟨rfl, fun _ => exposes initiator_request h, fun _ => exposes initiator_capture h⟩

theorem continues_exposing : Continues el (Request.Exposes (.episode el) o) := by
  rintro start initiator hbegins c path rfl -
  exact request_exposes (.inl hbegins)

end EpisodeController

namespace Scheme

variable (hlife : life.Serves (Request.Exposes (.episode el) o) I)

theorem exposing_lift {x : Act (EpisodeController × σ) α} {c : EpisodeController} {s : Scheme}
    {t : σ} (hx : Ends (fun _ => EpisodeController.Serving el I)
      (fun _ => EpisodeController.Serving el I) (x (c, t))) :
    Triple (fun p => p = (s, t)) (lift .episode x c)
      (fun _ => (Manners.exposing o).Minding (.episode el) I)
      fun _ => (Manners.exposing o).Minding (.episode el) I :=
  lift_triple (hx.imp (fun _ _ h => ⟨⟨congrArg Level.episode h.1, trivial⟩, h.2⟩)
    fun _ _ h => ⟨⟨congrArg Level.episode h.1, trivial⟩, h.2⟩)

include hlife

theorem exposing_activate (ha : (Manners.exposing o).hands (.episode el) a) :
    Triple (Manners.Fresh (.episode el) I) (activate life a)
      (fun _ => (Manners.exposing o).Minding (.episode el) I)
      fun _ => (Manners.exposing o).Minding (.episode el) I := by
  refine triple_get_bind ?_
  rintro ⟨_, t⟩ ⟨rfl, ht⟩
  let Fresh (c : EpisodeController) : Prop := c.level = el ∧ c.nextNumber = 0
  have hfirst (hnow : el.start = .now) :
      EpisodeController.Requests Fresh (Request.Exposes (.episode el) o) a.now a.trigger := by
    rintro c path ⟨rfl, hnumber⟩ -
    exact EpisodeController.request_exposes (.inr ⟨hnow, hnumber, ha.2⟩)
  exact exposing_lift (EpisodeController.activate_triple hlife EpisodeController.continues_exposing
    (C := Fresh) (fun _ hc => hc.1) (fun _ _ hc => hc) hfirst _ ⟨⟨rfl, rfl⟩, ht⟩)

theorem exposing_route : Keeps ((Manners.exposing o).Minding (.episode el) I) (route life e) := by
  refine triple_get_bind fun (s, t) ⟨⟨hlevel, _⟩, ht⟩ => ?_
  cases s with
  | episode c =>
      exact exposing_lift (EpisodeController.serves_route hlife EpisodeController.continues_exposing
        _ ⟨Level.episode.inj hlevel, ht⟩)
  | _ => cases hlevel

theorem exposing_tick : Keeps ((Manners.exposing o).Minding (.episode el) I) (tick life now) := by
  refine triple_get_bind fun (s, t) ⟨⟨hlevel, _⟩, ht⟩ => ?_
  cases s with
  | episode c =>
      exact exposing_lift (EpisodeController.serves_tick hlife EpisodeController.continues_exposing
        now _ ⟨Level.episode.inj hlevel, ht⟩)
  | _ => cases hlevel

omit hlife in
theorem exposing_restrict :
    Keeps ((Manners.exposing o).Minding (.episode el) I) (restrict life ranges) := by
  refine triple_get_bind fun (s, t) hs => ?_
  cases s with
  | episode c =>
      apply triple_fail
      rintro _ rfl
      exact hs
  | _ => cases hs.1.1

end Scheme

theorem Manners.exposing_lawful : (exposing o).Lawful where
  forget := Scheme.Bare.forget
  activate {σ life I l a} hlife ha := by
    cases l with
    | episode el => exact Scheme.exposing_activate hlife ha
    | _ => exact Scheme.bare_activate hlife (Request.exposes_of_asks (by simp)) ha.1
  route {σ life I l e} hlife := by
    cases l with
    | episode el => exact Scheme.exposing_route hlife
    | _ => exact Scheme.bare_route hlife (Request.exposes_of_asks (by simp))
  tick {σ life I l now} hlife := by
    cases l with
    | episode el => exact Scheme.exposing_tick hlife
    | _ => exact Scheme.bare_tick hlife (Request.exposes_of_asks (by simp))
  restrict {σ life I l ranges} hlife := by
    cases l with
    | episode el => exact Scheme.exposing_restrict
    | _ => exact Scheme.bare_restrict hlife (Request.exposes_of_asks (by simp))

end controllers

namespace Setting

variable {env : Setting} {o : Level} {below : List Level}

/-- All children under a node show what they should, and no controller below it has anything to
recreate, nor stands at the outermost level. -/
structure Exposing (o : Level) (_ : Unit) (below : List Level) (post : Post)
    (s : Children below × Books) : Prop where
  apart : o ∉ below
  bare : s.1.All (fun _ c _ => c.scheme.Bare) below
  each : s.1.EachStep (fun l key captured => l.Shows o key captured) post.level

theorem Exposing.congr {post : Post} {children : Children below} {b b' : Books}
    (h : Exposing o () below post (children, b)) : Exposing o () below post (children, b') :=
  ⟨h.apart, h.bare, h.each⟩

theorem startPartition_exposing {path : Path} {owner : Controller} {r : Request}
    (hr : r.Exposes owner.level o) :
    Keeps (Exposing o () [] owner.post) (env.startPartition owner path r) := by
  rintro ⟨partitions, b⟩ h
  have hgrown {p : UInt32} {generation : Nat} {agents : List Agent} {b' : Books} :
      Exposing o () [] owner.post
        (Table.insert partitions p { generation, key := r.key, properties := capture r, agents },
          b') :=
    ⟨h.apart, trivial, Children.EachStep.insert_partition h.each hr.partition⟩
  simp only [startPartition]
  split
  · exact h
  · split
    · exact h.congr
    · split
      · exact h.congr
      · exact hgrown

theorem endChild_exposing {post : Post} {id : ControllerId} {h : Handle}
    {termination : Option Props} :
    Keeps (Exposing o () below post) (env.endChild termination below id h) := by
  rintro ⟨children, b⟩ hs
  by_cases hlive : ∃ e ∈ children.table.entries, h = e.2.handle id e.1
  · obtain ⟨⟨k, a⟩, hmem, rfl⟩ := hlive
    rw [endChild_live hmem]
    exact ends_of_state ⟨hs.apart, hs.bare.erase, hs.each.erase⟩
  · rw [endChild_stale hlive]
    exact hs

theorem exposing_custody (env : Setting) (o : Level) :
    env.Custody (.exposing o) (fun l r => r.Exposes l o) (Exposing o) where
  asks hr := hr
  hands {x post m below r s} hr h :=
    ⟨hr.recovered, fun hsame => absurd (hsame ▸ List.mem_cons_self ..) h.apart⟩
  number h := h.congr
  partition hr := startPartition_exposing hr
  sprout {x post m below r branches b} hr h _ := by
    refine ⟨(), ⟨?_, Children.all_empty, Children.eachStep_empty⟩, fun node b' _ hknows hnode => ?_⟩
    · exact fun hmem => h.apart (List.mem_cons_of_mem _ hmem)
    · exact ⟨⟨h.apart, Children.All.insert h.bare ⟨hknows, hnode.bare⟩,
        Children.EachStep.insert_branch h.each hr.branch hnode.each⟩, h.congr⟩
  stop := endChild_exposing
  descend {x post m below k branch branches b} h hmem := by
    obtain ⟨hknows, hbare⟩ := h.bare (k, branch) hmem
    obtain ⟨hshows, heach⟩ := h.each (k, branch) hmem
    refine ⟨hknows, (), ⟨?_, hbare, heach⟩, fun node b' _ hknows' hnode => ?_⟩
    · exact fun hapart => h.apart (List.mem_cons_of_mem _ hapart)
    · exact ⟨h.apart, Children.All.insert h.bare ⟨hknows', hnode.bare⟩,
        Children.EachStep.insert_branch h.each hshows hnode.each⟩
  offer {x post p r partitions b e} h hmem :=
    ⟨h.apart, trivial, Children.EachStep.insert_partition h.each (h.each (p, r) hmem)⟩

end Setting

namespace Context

variable {c : Context} {runtime : Runtime} {o : Level}

structure Exposing (o : Level) (c : Context) : Prop where
  outer : c.declaration.outer = o
  unrecovered : c.Unrecovered
  tended : c.Tended (.exposing o) (Setting.Exposing o) () c.descriptor c.statements

theorem outer_not_mem_inner (d : Declaration) : d.outer ∉ d.inner := fun hmem =>
  (List.nodup_cons.1 d.distinct).1 (List.mem_map_of_mem hmem)

theorem exposing_of_none (houter : c.declaration.outer = o) (hrecovery : c.Unrecovered)
    (hroot : c.root = none) : c.Exposing o where
  outer := houter
  unrecovered := hrecovery
  tended :=
    { descriptor := rfl
      statements := rfl
      idle := fun _ _ => ⟨houter ▸ outer_not_mem_inner c.declaration, Children.all_empty,
        Children.eachStep_empty⟩
      tree := fun _ hsome => nomatch hroot.symm.trans hsome }

theorem Exposing.perform (h : c.Exposing o) (hsound : c.Sound False) {op : Operation}
    (hop : op.Regular) : (perform runtime op c).2.Exposing o := by
  have houter : (Context.perform runtime op c).2.declaration.outer = o :=
    (congrArg Declaration.outer perform_frame.1).trans h.outer
  have hrecovery : (Context.perform runtime op c).2.Unrecovered :=
    (unrecovered_perform c h.unrecovered).state
  have hoverlooks : Setting.Overlooks (Setting.Exposing o) :=
    fun hkin _ _ hs => ⟨hs.apart, hkin.under _ hs.bare, hkin.each _ _ hs.each⟩
  have hasks (r : Request) (l : Level) (hr : op.Asks r) : r.Exposes l o := by
    cases op with
    | instantiate originator r => exact hop.elim
    | _ => exact hr.elim
  have hkept : (Context.perform runtime op c).2.root = none ∨
      (Context.perform runtime op c).2.Tended (.exposing o) (Setting.Exposing o) () c.descriptor
        (Context.perform runtime op c).2.statements :=
    h.tended.perform hoverlooks hsound Manners.exposing_lawful
      (fun env _ _ => Setting.exposing_custody env o)
      (fun _ => ⟨congrArg (·.getD []) h.unrecovered, fun _ => rfl⟩) hasks
  rcases hkept with hnone | htended
  · exact exposing_of_none houter hrecovery hnone
  · exact ⟨houter, hrecovery, rfl, rfl, htended.idle, htended.tree⟩

theorem Chronicle.reachable {d : Declaration} {seen : List Handle} (h : Chronicle d seen c) :
    Reachable (fun _ => True) c := by
  induction h with
  | new options metrics => exact .new ..
  | step runtime op _ hop ih => exact ih.step runtime op trivial

theorem Chronicle.exposing {d : Declaration} {seen : List Handle} (h : Chronicle d seen c) :
    c.Exposing d.outer := by
  induction h with
  | new options metrics => exact exposing_of_none rfl rfl rfl
  | step runtime op hrun hop ih => exact ih.perform (hrun.reachable.sound False.elim) hop

/-- Every level on the way to a live partition shows exactly what it declares, in that order,
whichever operation started the partition and whatever was going on above it. The one exception is
the first episode of a level below the outermost that starts episodes at once: there the event that
woke the level's controller up, if any, is shown as the initiator. -/
theorem levels_show_what_they_declare {d : Declaration} {seen : List Handle}
    (h : Chronicle d seen c) {ℓ : Leaf} (hℓ : ℓ ∈ c.leaves) {step : Step} (hstep : step ∈ ℓ.path) :
    step.level.Exposes d.outer step.key step.properties := by
  have hsound : c.Sound False := h.reachable.sound False.elim
  have hlevel : step.level ∈ c.declaration.levels := by
    rw [← hsound.levels_eq hℓ]
    exact List.mem_map_of_mem hstep
  cases hroot : c.root with
  | none => simp [leaves, hroot] at hℓ
  | some root =>
      have heach := (h.exposing.tended.tree root hroot).minded.children.each
      rw [leaves_of_root hroot] at hℓ
      exact Node.eachStep_leaves heach (fun _ hmem => absurd hmem List.not_mem_nil) ℓ hℓ step hstep
        (c.declaration.sound _ hlevel)

theorem chronicle_visited : ∃ d seen, Chronicle d seen visited :=
  ⟨_, _, .step .collecting (.process page) (.step .collecting (.attach _) (.new {} none) trivial)
    trivial⟩

theorem visited_shows_what_it_declares :
    visited.leaves.map (fun ℓ => ℓ.path.map fun step =>
      (step.level.propertiesOf step.key step.properties).keys) =
        [[["key1"], ["startTime", "endTime", initiatorTag]]] ∧
      ∃ d, ∀ ℓ ∈ visited.leaves, ∀ step ∈ ℓ.path,
        step.level.Exposes d step.key step.properties := by
  obtain ⟨d, seen, hrun⟩ := chronicle_visited
  exact ⟨by decide +kernel, d.outer, fun _ hℓ _ => levels_show_what_they_declare hrun hℓ⟩

/-- The first visit shows the page that brought the user, which visits do not declare. -/
theorem first_visit_shows_initiator : ¬ ∀ d seen c, Chronicle d seen c →
    ∀ ℓ ∈ c.leaves, ∀ step ∈ ℓ.path,
      (step.level.propertiesOf step.key step.properties).keys = step.level.declaredNames := by
  intro h
  obtain ⟨d, seen, hrun⟩ := chronicle_visited
  have hextra : ¬ ∀ ℓ ∈ visited.leaves, ∀ step ∈ ℓ.path,
      (step.level.propertiesOf step.key step.properties).keys = step.level.declaredNames := by
    decide +kernel
  exact hextra (h d seen visited hrun)

end Context

end EventContexts
