import EventContexts.Proofs.Routing
import EventContexts.Proofs.Run
/-!
An event reaches every instance that is to have it, once, and no other: through the controllers
where the partition was live before, and as the trigger that starts it where it was not.
-/

namespace EventContexts

open Act

def Agent.gaining (a : Agent) (es : List Event) : Agent :=
  { a with view := { a.view with rows := a.view.rows ++ es } }

@[simp] theorem Agent.rows_gaining {a : Agent} {es : List Event} :
    (a.gaining es).rows = a.rows ++ es :=
  rfl

@[simp] theorem Agent.gaining_nil {a : Agent} : a.gaining [] = a := by
  simp [gaining]

theorem Agent.evaluate_eq_gaining {a : Agent} {e : Event} (h : a.view.detached = false) :
    a.evaluate e = a.gaining (if a.accepts e then [e] else []) := by
  rw [evaluate]
  split
  · simp [gaining, View.process, h]
  · exact gaining_nil.symm

namespace Leaf

variable {ℓ : Leaf} {e : Event} {d : Descriptor} {ss : List Statement} {old : List Leaf}
  {since : Nat}

/-- What an instance of a statement in the partition is to have of an event: the event, if the
statement asks for it and every level on the way sends it here. -/
def due (ℓ : Leaf) (e : Event) (s : Statement) : List Event :=
  if s.matches e ∧ ℓ.path.Routes e then [e] else []

def gaining (ℓ : Leaf) (e : Event) : Leaf :=
  ℓ.withAgents (ℓ.running.agents.map fun a => a.gaining (ℓ.due e a.statement))

theorem due_of_not_routes (h : ¬ ℓ.path.Routes e) (s : Statement) : ℓ.due e s = [] :=
  if_neg fun hdue => h hdue.2

theorem gaining_of_not_routes (h : ¬ ℓ.path.Routes e) : ℓ.gaining e = ℓ := by
  have hagents : ℓ.running.agents.map (fun a => a.gaining (ℓ.due e a.statement)) =
      ℓ.running.agents := by
    simp [due_of_not_routes h]
  rw [gaining, hagents]
  rfl

/-- Before the event: a partition of old, or one without rows that was not there. -/
structure Untouched (old : List Leaf) (since : Nat) (ℓ : Leaf) : Prop where
  origin : ℓ ∈ old ∨ since ≤ ℓ.running.generation ∧ ∀ a ∈ ℓ.running.agents, a.rows = []

structure Served (old : List Leaf) (since : Nat) (e : Event) (ℓ : Leaf) : Prop where
  origin : (∃ ℓ₀ ∈ old, ℓ = ℓ₀.gaining e) ∨
    since ≤ ℓ.running.generation ∧ ∀ a ∈ ℓ.running.agents, a.rows = ℓ.due e a.statement

structure InOrder (d : Descriptor) (ss : List Statement) (ℓ : Leaf) : Prop where
  staffed : ℓ.Staffed d ss
  levels : ∀ step ∈ ℓ.path, step.level.flaw? = none

theorem InOrder.evaluate_eq (h : ℓ.InOrder d ss) (hroutes : ℓ.path.Routes e) {a : Agent}
    (ha : a ∈ ℓ.running.agents) : a.evaluate e = a.gaining (ℓ.due e a.statement) := by
  rw [Agent.evaluate_eq_gaining (h.staffed.attached a ha),
    h.staffed.accepts h.levels hroutes ha, due]
  simp only [hroutes, and_true]

theorem Untouched.served (h : ℓ.Untouched old since) (hroutes : ¬ ℓ.path.Routes e) :
    ℓ.Served old since e := by
  refine ⟨h.origin.imp (fun hold => ⟨ℓ, hold, (gaining_of_not_routes hroutes).symm⟩) ?_⟩
  rintro ⟨hsince, hrows⟩
  refine ⟨hsince, fun a ha => ?_⟩
  rw [hrows a ha, due_of_not_routes hroutes]

theorem Untouched.evaluate (h : ℓ.Untouched old since) (hℓ : ℓ.InOrder d ss)
    (hroutes : ℓ.path.Routes e) :
    (ℓ.withAgents (ℓ.running.agents.map fun a => a.evaluate e)).Served old since e := by
  have hagents : ℓ.running.agents.map (fun a => a.evaluate e) =
      ℓ.running.agents.map fun a => a.gaining (ℓ.due e a.statement) :=
    List.map_congr_left fun a ha => hℓ.evaluate_eq hroutes ha
  rw [hagents]
  refine ⟨h.origin.imp (fun hold => ⟨ℓ, hold, rfl⟩) ?_⟩
  rintro ⟨hsince, hrows⟩
  refine ⟨hsince, fun a' ha' => ?_⟩
  obtain ⟨a, ha, rfl⟩ := List.mem_map.1 ha'
  rw [Agent.rows_gaining, hrows a ha]
  rfl

theorem InOrder.evaluate (h : ℓ.InOrder d ss) (e : Event) :
    (ℓ.withAgents (ℓ.running.agents.map fun a => a.evaluate e)).InOrder d ss :=
  ⟨h.staffed.evaluate e, h.levels⟩

end Leaf

theorem Path.routes_append {path : Path} {step : Step} {e : Event} :
    (path ++ [step]).Routes e ↔ path.Routes e ∧ step.level.Routes e step.key := by
  simp [Path.Routes, or_imp, forall_and]

/-- What is asked for on the way of an event, if there is one: the children that it belongs to
start with it, and all others start without. -/
structure Request.Bears (e? : Option Event) (path : Path) (l : Level) (r : Request) : Prop where
  levels : ∀ step ∈ path, step.level.flaw? = none
  level : l.flaw? = none
  recovered : r.recovered.getD [] = []
  trigger : ∀ e, r.trigger = some e ↔ e? = some e ∧ path.Routes e ∧ l.Routes e r.key

namespace Request.Bears

variable {env : Setting} {e? : Option Event} {e : Event} {path : Path} {l l' : Level}
  {r r' : Request}

theorem levels_append (h : r.Bears e? path l) (properties : Props) :
    ∀ step ∈ path ++ [⟨l, r.key, properties⟩], step.level.flaw? = none := by
  intro step hstep
  rcases List.mem_append.1 hstep with hstep | hstep
  · exact h.levels step hstep
  · rw [List.mem_singleton.1 hstep]
    exact h.level

theorem inherit (h : r.Bears e? path l) (hl : l'.flaw? = none)
    (hr : r'.Answers l' (env.activation r)) :
    r'.Bears e? (path ++ [⟨l, r.key, r.properties⟩]) l' where
  levels := h.levels_append r.properties
  level := hl
  recovered := hr.recovered h.recovered
  trigger e := by
    have htrigger : r'.trigger = some e ↔ r.trigger = some e ∧ l'.Routes e r'.key :=
      hr.trigger (.inl h.recovered) e
    rw [htrigger, h.trigger, Path.routes_append, and_assoc]

end Request.Bears

namespace Setting

variable {env : Setting} {old : List Leaf} {since : Nat} {e : Event} {below : List Level}
  {path : Path} {post : Post} {rest : List Number}

structure Waits (env : Setting) (old : List Leaf) (since : Nat) (ℓ : Leaf) : Prop where
  inOrder : ℓ.InOrder env.descriptor env.statements
  untouched : ℓ.Untouched old since

structure Done (env : Setting) (old : List Leaf) (since : Nat) (e : Event) (ℓ : Leaf) : Prop where
  inOrder : ℓ.InOrder env.descriptor env.statements
  served : ℓ.Served old since e

theorem Waits.evaluate {ℓ : Leaf} (h : env.Waits old since ℓ) (hroutes : ℓ.path.Routes e) :
    env.Done old since e (ℓ.withAgents (ℓ.running.agents.map fun a => a.evaluate e)) :=
  ⟨h.inOrder.evaluate e, h.untouched.evaluate h.inOrder hroutes⟩

theorem Waits.done {ℓ : Leaf} (h : env.Waits old since ℓ) (hroutes : ¬ ℓ.path.Routes e) :
    env.Done old since e ℓ :=
  ⟨h.inOrder, h.untouched.served hroutes⟩

theorem Opens.waits {ℓ : Leaf} {recovering : Bool}
    (h : env.Opens ℓ.path ℓ.partition recovering ℓ.running.agents)
    (hlevels : ∀ step ∈ ℓ.path, step.level.flaw? = none) (hsince : since ≤ ℓ.running.generation) :
    env.Waits old since ℓ := by
  refine ⟨⟨h.staffed, hlevels⟩, ⟨.inr ⟨hsince, fun a ha => ?_⟩⟩⟩
  rw [Agent.rows, h.blank a ha]

theorem waits_policy (env : Setting) (old : List Leaf) (since : Nat) :
    env.Policy since (fun path l r => r.Bears none path l) (env.Waits old since) where
  inherit h _ _ hl hr := h.inherit hl hr
  seed {path l r id p generation agents} h hsince hopens := by
    let ℓ : Leaf := ⟨path ++ [⟨l, r.key, capture r⟩], id, p, ⟨generation, r.key, capture r, agents⟩⟩
    have hwaits : env.Waits old since ℓ := hopens.waits (h.levels_append _) hsince
    have htrigger : r.trigger = none := by
      refine Option.eq_none_iff_forall_ne_some.2 fun e he => ?_
      cases ((h.trigger e).1 he).1
    rw [htrigger]
    exact hwaits

theorem done_policy (env : Setting) (old : List Leaf) (since : Nat) (e : Event) :
    env.Policy since (fun path l r => r.Bears (some e) path l) (env.Done old since e) where
  inherit h _ _ hl hr := h.inherit hl hr
  seed {path l r id p generation agents} h hsince hopens := by
    let ℓ : Leaf := ⟨path ++ [⟨l, r.key, capture r⟩], id, p, ⟨generation, r.key, capture r, agents⟩⟩
    have hwaits : env.Waits old since ℓ := hopens.waits (h.levels_append _) hsince
    have hroutes : r.trigger = some e ↔ ℓ.path.Routes e := by
      rw [h.trigger, Path.routes_append]
      exact and_iff_right rfl
    cases htrigger : r.trigger with
    | none => exact hwaits.done fun hr => by simp [hroutes.2 hr] at htrigger
    | some e' =>
        obtain rfl : e = e' := Option.some.inj ((h.trigger e').1 htrigger).1
        exact hwaits.evaluate (hroutes.1 htrigger)

structure Fresh (env : Setting) (old : List Leaf) (since : Nat) (e : Event) (path : Path)
    (post : Post) (fresh : Option Key) (x : UInt32 × Child below) : Prop where
  new : some x.2.key = fresh → Child.Sound (env.Done old since e) True below path post x
  old : some x.2.key ≠ fresh → Child.Sound (env.Waits old since) True below path post x

structure Pending (env : Setting) (old : List Leaf) (since : Nat) (e : Event) (path : Path)
    (post : Post) (targets : List Handle) (x : UInt32 × Child below) : Prop where
  waits : x.2.handle post.id x.1 ∈ targets →
    post.level.Routes e x.2.key ∧ Child.Sound (env.Waits old since) True below path post x
  done : x.2.handle post.id x.1 ∉ targets →
    Child.Sound (env.Done old since e) True below path post x

theorem fresh_none {x : UInt32 × Child below} :
    env.Fresh old since e path post none x ↔
      Child.Sound (env.Waits old since) True below path post x :=
  ⟨fun h => h.old (by simp), fun h => ⟨by simp, fun _ => h⟩⟩

theorem sound_done {x : UInt32 × Child below}
    (h : Child.Sound (env.Waits old since) True below path post x)
    (hroutes : ¬ post.level.Routes e x.2.key) :
    Child.Sound (env.Done old since e) True below path post x := by
  refine h.mono fun ℓ hunder hwaits => hwaits.done fun hℓ => hroutes ?_
  exact hℓ ⟨post.level, x.2.key, x.2.properties⟩
    (hunder.subset (List.mem_append_right _ (List.mem_singleton_self _)))

theorem Fresh.pending {fresh : Option Key} {brood : Brood} {t : Table (Child below)}
    {targets : List Handle}
    (hfamily : Family True post.id (env.Fresh old since e path post fresh) brood t)
    (htargets : Targets post.level e fresh brood targets) :
    targets.Nodup ∧ Family True post.id (env.Pending old since e path post targets) brood t := by
  obtain ⟨chosen, rfl, hnodup, hchosen⟩ := htargets
  have hremembered {p : Key × Handle} (hp : p ∈ brood.entries) :
      ∃ x ∈ t.entries, p = (x.2.key, x.2.handle post.id x.1) := by
    obtain ⟨x, hx, rfl⟩ := List.mem_map.1 ((hfamily.remembered trivial).mem_iff.1 hp)
    exact ⟨x, hx, rfl⟩
  have hmem {x : UInt32 × Child below} (hx : x ∈ t.entries) :
      x.2.handle post.id x.1 ∈ chosen.map Prod.snd ↔
        post.level.Routes e x.2.key ∧ some x.2.key ≠ fresh := by
    have hbrood : (x.2.key, x.2.handle post.id x.1) ∈ brood.entries :=
      (hfamily.remembered trivial).mem_iff.2
        (List.mem_map_of_mem (f := fun x => (x.2.key, x.2.handle post.id x.1)) hx)
    constructor
    · intro hin
      obtain ⟨p, hp, hhandle⟩ := List.mem_map.1 hin
      obtain ⟨hentry, hroutes⟩ := (hchosen p).1 hp
      rw [(hfamily.remembered_iff trivial hx hentry).1 hhandle] at hroutes
      exact hroutes
    · intro hroutes
      exact List.mem_map_of_mem (f := Prod.snd) ((hchosen _).2 ⟨hbrood, hroutes⟩)
  refine ⟨hnodup.map_on fun p hp q hq heq => ?_, hfamily.mono fun x hx hfresh => ⟨?_, ?_⟩⟩
  -- no two children share a handle, so no target is named twice
  · obtain ⟨x, hx, rfl⟩ := hremembered ((hchosen q).1 hq).1
    exact (hfamily.remembered_iff trivial hx ((hchosen p).1 hp).1).1 heq
  · intro hin
    obtain ⟨hroutes, hnew⟩ := (hmem hx).1 hin
    exact ⟨hroutes, hfresh.old hnew⟩
  · intro hout
    -- not a target: the event has started the child, or does not belong to it
    by_cases hnew : some x.2.key = fresh
    · exact hfresh.new hnew
    · exact sound_done (hfresh.old hnew) fun hroutes => hout ((hmem hx).2 ⟨hroutes, hnew⟩)

theorem Pending.drop {h : Handle} {targets : List Handle} {x : UInt32 × Child below}
    (hx : env.Pending old since e path post (h :: targets) x) (hne : x.2.handle post.id x.1 ≠ h) :
    env.Pending old since e path post targets x where
  waits hin := hx.waits (List.mem_cons_of_mem _ hin)
  done hout := hx.done fun hin => (List.mem_cons.1 hin).elim hne hout

structure Delivering (env : Setting) (old : List Leaf) (since : Nat) (e : Event) (path : Path)
    (post : Post) (rest : List Number) (targets : List Handle)
    (s : Node (Children below) × Books) : Prop where
  nodup : targets.Nodup
  stands : Stands env.limit since True post rest (env.Pending old since e path post targets) s

section routing

variable {owner : Controller} (hl : ∀ l ∈ owner.level :: below, l.flaw? = none)
  (hpath : ∀ step ∈ path, step.level.flaw? = none)

include hl hpath

-- a child that starts plainly, such as the next episode, is yet to see the event
theorem lifecycle_waits : (env.lifecycle below path owner).Honours Request.Plain
    (Kept env.limit since True owner.id rest (env.Fresh old since e path owner.post none)) := by
  have hgrows : env.Grows since (fun path l r => r.Bears none path l) (env.Waits old since) True
      below := grows (env.waits_policy old since) below fun l hm => hl l (List.mem_cons_of_mem _ hm)
  refine ⟨fun {r brood} hr hkey => ?_, stop_triple⟩
  have hbears : r.Bears none path owner.level :=
    ⟨hpath, hl _ (List.mem_cons_self ..), hr.2, fun e' => by simp [hr.1]⟩
  exact start_triple hgrows hbears hkey (fun _ _ hx => hx) fun _ _ hx => fresh_none.2 hx

-- a child that starts with the event has seen it, all the way down
theorem lifecycle_delivers (hroutes : path.Routes e) :
    (env.lifecycle below path owner).Delivers owner.level e fun fresh =>
      Kept env.limit since True owner.id rest (env.Fresh old since e path owner.post fresh) := by
  have hgrows : env.Grows since (fun path l r => r.Bears (some e) path l) (env.Done old since e)
      True below :=
    grows (env.done_policy old since e) below fun l hm => hl l (List.mem_cons_of_mem _ hm)
  intro r brood hr hkey
  have hbears : r.Bears (some e) path owner.level := by
    refine ⟨hpath, hl _ (List.mem_cons_self ..), hr.recovered, fun e' => ?_⟩
    rw [hr.trigger]
    constructor
    · rintro ⟨⟩
      exact ⟨rfl, hroutes, hr.routes⟩
    · exact fun h => h.1
  refine start_triple hgrows hbears hkey (fun x hne hx => ?_) fun x heq hx => ?_
  · exact ⟨fun h => absurd (Option.some.inj h) (hne trivial), fun _ => fresh_none.1 hx⟩
  · exact ⟨fun _ => hx, fun h => absurd (congrArg some heq) h⟩

end routing

theorem route_delivers (hl : ∀ l ∈ post.level :: below, l.flaw? = none)
    (hpath : ∀ step ∈ path, step.level.flaw? = none) (hroutes : path.Routes e) :
    Triple (Stands env.limit since True post rest
        (Child.Sound (env.Waits old since) True below path post))
      (env.drive below path fun life => Controller.route life e)
      (fun targets => env.Delivering old since e path post rest targets) (fun _ _ => True) := by
  rintro ⟨node, b⟩ hs
  obtain rfl : node.controller.post = post := hs.manned.stands
  have hready : Stands env.limit since True node.controller.post rest
      (env.Fresh old since e path node.controller.post none) (node, b) :=
    ⟨⟨rfl, hs.manned.tended.mono fun hf => hf.mono fun _ _ hx => fresh_none.2 hx⟩, hs.accounts⟩
  have hmanned : Controller.Manned node.controller.post
      (Kept env.limit since True node.controller.id rest
        (env.Fresh old since e path node.controller.post none)) node.controller
      (node.children, b) := manned_iff_stands.2 hready
  have hrouted := Controller.route_triple (lifecycle_waits hl hpath) (hl _ (List.mem_cons_self ..))
    (fun _ hr => hr) (lifecycle_delivers hl hpath hroutes) (node.controller, (node.children, b))
    hmanned
  refine drive_ends (hrouted.imp ?_ fun _ _ _ => trivial)
  rintro targets ⟨controller, children, b'⟩ ⟨hpost, ⟨fresh, htended, htargets, -⟩⟩
  have hstands : Stands env.limit since True node.controller.post rest
      (env.Fresh old since e path node.controller.post fresh) (⟨controller, children⟩, b') :=
    manned_iff_stands.1 ⟨hpost, htended⟩
  obtain ⟨hnodup, hfamily⟩ := Fresh.pending hstands.manned.tended.holds htargets
  exact ⟨hnodup, ⟨hpost, hstands.manned.tended.mono fun _ => hfamily⟩, hstands.accounts⟩

theorem Delivering.done {s : Node (Children below) × Books}
    (h : env.Delivering old since e path post rest [] s) :
    Stands env.limit since True post rest
      (Child.Sound (env.Done old since e) True below path post) s :=
  ⟨⟨h.stands.manned.stands, h.stands.manned.tended.mono fun hf =>
    hf.mono fun _ _ hx => hx.done List.not_mem_nil⟩, h.stands.accounts⟩

theorem Delivering.skip {s : Node (Children below) × Books} {h : Handle} {targets : List Handle}
    (hs : env.Delivering old since e path post rest (h :: targets) s)
    (hstale : ¬ ∃ x ∈ s.1.children.table.entries, h = x.2.handle s.1.controller.id x.1) :
    env.Delivering old since e path post rest targets s := by
  have hid : s.1.controller.id = post.id := congrArg Post.id hs.stands.manned.stands
  refine ⟨(List.nodup_cons.1 hs.nodup).2, ⟨hs.stands.manned.stands, ?_⟩, hs.stands.accounts⟩
  refine hs.stands.manned.tended.mono fun hf => hf.mono fun x hx hpending => ?_
  refine hpending.drop fun heq => hstale ⟨x, hx, ?_⟩
  rw [hid, heq]

theorem offerPartition_delivers (hroutes : path.Routes e) {h : Handle} {targets : List Handle} :
    Triple (env.Delivering old since e path post rest (h :: targets)) (offerPartition e h)
      (fun _ => env.Delivering old since e path post rest targets) (fun _ _ => True) := by
  rintro ⟨node, b⟩ hs
  obtain rfl : node.controller.post = post := hs.stands.manned.stands
  by_cases hlive : ∃ x ∈ node.children.table.entries, h = x.2.handle node.controller.id x.1
  · obtain ⟨⟨p, r⟩, hmem, hh⟩ := hlive
    obtain ⟨hnew, hnodup⟩ := List.nodup_cons.1 hs.nodup
    have hpending := hs.stands.manned.tended.holds.each (p, r) hmem
    obtain ⟨hkey, hwaits⟩ := hpending.waits (hh ▸ List.mem_cons_self ..)
    rw [offerPartition_live hmem hh]
    refine ⟨hnodup, hs.stands.withAgents hmem (Books.accounts_offerAll e _ hs.stands.accounts)
      (fun x _ hne hx => hx.drop fun heq => ?_) ?_⟩
    · exact hne (Child.handle_inj (heq.trans hh))
    · rintro _ rfl
      refine ⟨fun hin => absurd (hh ▸ hin) hnew, fun _ => ?_⟩
      exact Waits.evaluate hwaits (Path.routes_append.2 ⟨hroutes, hkey⟩)
  · rw [offerPartition_stale hlive]
    exact hs.skip hlive

theorem inBranch_delivers {l : Level} {post : Post}
    {visit : Path → Act (Node (Children below) × Books) Unit}
    (hvisit : ∀ {key properties post' rest'}, post.level.Routes e key → post'.level = l →
      Triple (Stands env.limit since True post' rest'
          (Child.Sound (env.Waits old since) True below
            (path ++ [⟨post.level, key, properties⟩]) post'))
        (visit (path ++ [⟨post.level, key, properties⟩]))
        (fun _ => Stands env.limit since True post' rest'
          (Child.Sound (env.Done old since e) True below
            (path ++ [⟨post.level, key, properties⟩]) post')) (fun _ _ => True))
    {h : Handle} {targets : List Handle} :
    Triple (fun s : Node (Children (l :: below)) × Books =>
        env.Delivering old since e path post rest (h :: targets) s) (inBranch visit path h)
      (fun _ => env.Delivering old since e path post rest targets) (fun _ _ => True) := by
  rintro ⟨node, b⟩ hs
  obtain rfl : node.controller.post = post := hs.stands.manned.stands
  by_cases hlive : ∃ x ∈ node.children.table.entries, h = x.2.handle node.controller.id x.1
  · obtain ⟨⟨k, branch⟩, hmem, hh⟩ := hlive
    obtain ⟨hnew, hnodup⟩ := List.nodup_cons.1 hs.nodup
    have hpending := hs.stands.manned.tended.holds.each (k, branch) hmem
    obtain ⟨hkey, hwaits⟩ := hpending.waits (hh ▸ List.mem_cons_self ..)
    apply inBranch_ends hmem hh
    rw [hs.stands.step_eq]
    have hbranch := hs.stands.descend hmem hwaits
    refine (hvisit hkey rfl _ hbranch).imp (fun _ s hs' => ?_) fun _ _ _ => trivial
    refine ⟨hnodup, hs.stands.ascend hmem hs' (fun x _ hne hx => hx.drop fun heq => ?_) ?_⟩
    · exact hne (Child.handle_inj (heq.trans hh))
    · refine fun a _ hhandle hdone => ⟨fun hin => absurd ?_ hnew, fun _ => hdone⟩
      rw [hhandle] at hin
      rw [hh]
      exact hin
  · rw [inBranch_stale hlive]
    exact hs.skip hlive

theorem offer_delivers (env : Setting) (hl : ∀ l ∈ post.level :: below, l.flaw? = none)
    (hpath : ∀ step ∈ path, step.level.flaw? = none) (hroutes : path.Routes e) :
    Triple (Stands env.limit since True post rest
        (Child.Sound (env.Waits old since) True below path post)) (env.offer e below path)
      (fun _ => Stands env.limit since True post rest
        (Child.Sound (env.Done old since e) True below path post)) (fun _ _ => True) := by
  have hloop {below : List Level} {path : Path} {post : Post} {rest : List Number}
      {f : Handle → Act (Node (Children below) × Books) Unit}
      (hf : ∀ h targets, Triple (env.Delivering old since e path post rest (h :: targets)) (f h)
        (fun _ => env.Delivering old since e path post rest targets) (fun _ _ => True))
      (targets : List Handle) :
      Triple (env.Delivering old since e path post rest targets) (forEach f targets)
        (fun _ => Stands env.limit since True post rest
          (Child.Sound (env.Done old since e) True below path post)) (fun _ _ => True) :=
    (triple_forEach_rest targets hf).imp (fun _ hs => hs) (fun _ _ hs => hs.done) fun _ _ h => h
  -- down the levels; the way to each target routes the event, as its controller has checked
  induction below generalizing path post rest with
  | nil =>
      refine Triple.bind (route_delivers hl hpath hroutes) (hloop fun h targets => ?_)
      exact offerPartition_delivers hroutes
  | cons l below ih =>
      refine Triple.bind (route_delivers hl hpath hroutes) (hloop fun h targets => ?_)
      refine inBranch_delivers fun {key properties post' rest'} hkey hlevel => ?_
      refine ih (fun m hm => hl m (List.mem_cons_of_mem _ (hlevel ▸ hm))) ?_ ?_
      · intro step hstep
        rcases List.mem_append.1 hstep with hstep | hstep
        · exact hpath step hstep
        · rw [List.mem_singleton.1 hstep]
          exact hl _ (List.mem_cons_self ..)
      · exact Path.routes_append.2 ⟨hroutes, hkey⟩

end Setting

namespace Context

variable {c c' : Context} {runtime : Runtime} {e : Event}

theorem Sound.waits (h : c.Sound True) (runtime : Runtime)
    {root : Node (Children c.declaration.inner)} (hroot : c.root = some root) :
    c.Upholds c.books.nextGeneration True
      ((c.setting runtime).Waits c.leaves c.books.nextGeneration) (root, c.books) := by
  obtain ⟨id, hs⟩ := h.tree root hroot
  refine ⟨id, ?_, { hs.accounts with since := Nat.le_refl _ }⟩
  refine Node.Sound.refine hs.manned fun ℓ hℓ hstaffed => ⟨⟨hstaffed, fun step hstep => ?_⟩, ?_⟩
  · rcases Node.Sound.levels hs.manned hℓ step hstep with hnil | hlevel
    · cases hnil
    · exact c.flaw?_levels id _ hlevel
  · rw [leaves_of_root hroot]
    exact ⟨.inl hℓ⟩

theorem Sound.generations {strict : Prop} (h : c.Sound strict) :
    (c.leaves.map fun ℓ => ℓ.running.generation).Nodup ∧
      ∀ ℓ ∈ c.leaves, ℓ.running.generation < c.books.nextGeneration := by
  cases hroot : c.root with
  | none => simp [Context.leaves, hroot]
  | some root =>
      obtain ⟨id, hs⟩ := h.tree root hroot
      have hgenerations : (root.children.numbers ++ [Number.controller id]).filterMap
          Number.generation? = c.leaves.map fun ℓ => ℓ.running.generation := by
        rw [List.filterMap_append, Node.generations_numbers root [], leaves_of_root hroot]
        exact List.append_nil _
      rw [← hgenerations]
      refine ⟨hs.accounts.generations, fun ℓ hℓ => hs.accounts.generationsGiven _ ?_⟩
      rw [hgenerations]
      exact List.mem_map_of_mem hℓ

theorem process_done (h : c.Sound True) (hok : process runtime e c = (.ok (), c')) :
    ∀ ℓ ∈ c'.leaves, (c.setting runtime).Done c.leaves c.books.nextGeneration e ℓ := by
  rw [process, onRoot] at hok
  split at hok
  · next hroot =>
      obtain ⟨-, rfl⟩ := Prod.mk.inj hok
      simp [Context.leaves, hroot]
  · next root hroot =>
      obtain ⟨id, hs⟩ := h.waits runtime hroot
      have hoffer := Setting.offer_delivers (e := e) (c.setting runtime) (c.flaw?_levels id)
        (List.forall_mem_nil _) (List.forall_mem_nil _) _ hs
      rcases hx : (c.setting runtime).offer e c.declaration.inner [] (root, c.books)
        with ⟨r, root', books⟩
      rw [hx] at hoffer
      simp only [hx, Option.map_some, Option.getD_some, Prod.mk.injEq] at hok
      obtain ⟨rfl, rfl⟩ := hok
      exact Node.Sound.leaves hoffer.manned

/-- What an event has done to the partitions that are live afterwards: an instance in one that
lasted has what it had before and what is due to it, one in a new partition has what is due to it.
No level keeps anything from it that the levels send. -/
structure Delivered (c c' : Context) (e : Event) : Prop where
  lasting : ∀ ℓ ∈ c'.leaves, ∀ ℓ₀ ∈ c.leaves, ℓ.running.generation = ℓ₀.running.generation →
    ℓ = ℓ₀.withAgents (ℓ₀.running.agents.map fun a => a.gaining (ℓ₀.due e a.statement))
  fresh : ∀ ℓ ∈ c'.leaves, (∀ ℓ₀ ∈ c.leaves, ℓ.running.generation ≠ ℓ₀.running.generation) →
    ∀ a ∈ ℓ.running.agents, a.rows = ℓ.due e a.statement
  unhindered : ∀ ℓ ∈ c'.leaves, ∀ a ∈ ℓ.running.agents, ∀ (f : HeldFilter) (e' : Event),
    ℓ.path.Routes e' → f.filter.accepts e' = true → a.addendum.accepts f e' = true

theorem process_delivers (h : Reachable Operation.Regular c)
    (hok : process runtime e c = (.ok (), c')) : Delivered c c' e := by
  have hsound : c.Sound True := h.sound fun _ _ hop => hop
  obtain ⟨hnodup, hgiven⟩ := hsound.generations
  have hdone := process_done hsound hok
  constructor
  · intro ℓ hℓ ℓ₀ hℓ₀ heq
    rcases (hdone ℓ hℓ).served.origin with ⟨ℓ₁, hℓ₁, rfl⟩ | ⟨hsince, -⟩
    · rw [← List.inj_on_of_nodup_map hnodup hℓ₁ hℓ₀ heq]
      rfl
    · -- a generation that was given before is not one given since
      have hlt := hgiven ℓ₀ hℓ₀
      omega
  · intro ℓ hℓ hnew
    rcases (hdone ℓ hℓ).served.origin with ⟨ℓ₁, hℓ₁, rfl⟩ | ⟨-, hrows⟩
    · exact absurd rfl (hnew ℓ₁ hℓ₁)
    · exact hrows
  · intro ℓ hℓ a ha f e' hroutes hf
    obtain ⟨recovering, hrequest⟩ := (hdone ℓ hℓ).inOrder.staffed.requests a ha
    have haddendum : a.addendum = ℓ.path.addendum a.statement :=
      congrArg StartRequest.addendum hrequest
    rw [haddendum]
    exact Path.addendum_accepts (hdone ℓ hℓ).inOrder.levels hroutes hf

theorem visited_process_delivers :
    ∃ c', process .collecting page visited = (.ok (), c') ∧ Delivered visited c' page := by
  have hisOk : (process .collecting page visited).1.isOk = true := by decide +kernel
  rcases hprocess : process .collecting page visited with ⟨_ | _, c'⟩
  · rw [hprocess] at hisOk
    cases hisOk
  · exact ⟨c', rfl, process_delivers reachable_visited hprocess⟩

end Context

end EventContexts
