import EventContexts.Context.Lookup
import EventContexts.Proofs.Delivery
import EventContexts.Proofs.Places
import EventContexts.Proofs.Replanting
import EventContexts.Proofs.Spots

namespace EventContexts

open Act

variable {σ : Type} {l : Level} {below : List Level} {now : Int64} {xs : List Assignment}
  {path : Path} {post : Post} {Q : Leaf → Prop} {each : UInt32 × Child below → Prop}

theorem Tended.places {I : Brood → σ → Prop} {s : Scheme} {t : σ} (h : Tended l I s t) {key : Key}
    (hkey : key ∈ s.children.keys) : ∃ place, l.Places key place := by
  obtain ⟨rfl, hsound, -⟩ := h
  cases s with
  | keyed c =>
      obtain ⟨values, rfl⟩ := hsound key hkey
      exact ⟨0, values, rfl⟩
  | category c =>
      obtain ⟨i, hi, rfl⟩ := hsound key hkey
      obtain ⟨index, hlt, rfl⟩ := List.getElem_of_mem hi
      exact ⟨_, index, _, List.getElem?_eq_getElem hlt, rfl, rfl⟩
  | hash c =>
      obtain ⟨bucket, rfl, -⟩ := hsound key hkey
      exact ⟨_, bucket, rfl, rfl⟩
  | episode c =>
      obtain ⟨start, number, rfl, -⟩ := hsound key hkey
      exact ⟨_, start, number, rfl, rfl⟩
  | temporal c => exact ⟨0, hsound key hkey, rfl⟩

def Assignment.Complete (now : Int64) : List Level → List Assignment → Prop
  | [], _ => True
  | l :: below, xs => l.Complete now xs ∧ ∀ x ∈ xs, Complete now below x.children

instance Level.decidableComplete : Decidable (l.Complete now xs) :=
  decidable_of_iff
    (l.kind ≠ .initiatedTerminated ∧
      (∀ ks ∈ l.eagerKeys? now, (xs.map Assignment.key).Perm ks) ∧
      (l.kind = .temporal → ∀ x ∈ xs, x.children = []))
    ⟨fun ⟨hkind, heager, hbare⟩ => ⟨hkind, heager, hbare⟩,
      fun ⟨hkind, heager, hbare⟩ => ⟨hkind, heager, hbare⟩⟩

instance Assignment.decidableComplete (now : Int64) :
    (levels : List Level) → (xs : List Assignment) → Decidable (Complete now levels xs)
  | [], _ => inferInstanceAs (Decidable True)
  | l :: below, xs =>
      have : ∀ x : Assignment, Decidable (Complete now below x.children) :=
        fun x => decidableComplete now below x.children
      inferInstanceAs (Decidable (l.Complete now xs ∧ ∀ x ∈ xs, Complete now below x.children))

def Level.Lazy : Level → Prop
  | .keyed _ => True
  | .hash l => l.preallocate = false
  | _ => False

theorem Level.Lazy.complete (h : l.Lazy) : l.Complete now xs := by
  cases l with
  | keyed l => exact ⟨by simp [Level.kind], by simp [Level.eagerKeys?], by simp [Level.kind]⟩
  | hash l =>
      have hpreallocate : l.preallocate = false := h
      refine ⟨by simp [Level.kind], ?_, by simp [Level.kind]⟩
      simp [Level.eagerKeys?, hpreallocate]
  | _ => exact h.elim

theorem Level.Lazy.kind_ne (h : l.Lazy) : l.kind ≠ .temporal := by
  rintro hkind
  cases l with
  | temporal l => exact h
  | _ => cases hkind

theorem Assignment.complete_of_lazy {levels : List Level} (h : ∀ l ∈ levels, l.Lazy) :
    Assignment.Complete now levels xs := by
  induction levels generalizing xs with
  | nil => trivial
  | cons l below ih =>
      obtain ⟨hl, hbelow⟩ := List.forall_mem_cons.1 h
      exact ⟨hl.complete, fun x _ => ih hbelow⟩

theorem Child.key_assignment (x : UInt32 × Child below) : (Child.assignment x).key = x.2.key := by
  cases below <;> rfl

namespace Node

theorem named {controller : Controller} {children : Children below}
    (hs : Controller.Manned post
      (fun brood children => Family True post.id each brood children.table) controller children) :
    post.level.Named (children.table.entries.map Child.assignment) where
  distinct := by
    rw [List.map_map]
    have hkeys := hs.tended.holds.nodup_keys trivial
    have hsame : (Assignment.key ∘ Child.assignment : UInt32 × Child below → Key) =
        fun x => x.2.key := funext Child.key_assignment
    rwa [hsame]
  keys y hy := by
    obtain ⟨x, hx, rfl⟩ := List.mem_map.1 hy
    rw [Child.key_assignment]
    refine hs.tended.places (List.mem_map.2 ⟨(x.2.key, x.2.handle post.id x.1), ?_, rfl⟩)
    exact (hs.tended.holds.remembered trivial).mem_iff.2
      (List.mem_map_of_mem (f := fun x => (x.2.key, x.2.handle post.id x.1)) hx)

theorem Sound.regrow {node : Node (Children below)} (hs : node.Sound Q True below path post)
    (hplaced : node.children.Placed post.level)
    (hcomplete : Assignment.Complete now (post.level :: below) (node.assignments below)) :
    Assignment.Regrow now below post.level (node.assignments below) := by
  have hascending := node.children.table.ascending
  induction below generalizing path post with
  | nil =>
      refine ⟨⟨hcomplete.1, named hs⟩, _, hascending, ?_⟩
      rw [assignments_eq, List.forall₂_map_left_iff, List.forall₂_map_right_iff, List.forall₂_same]
      exact fun x _ => ⟨rfl, rfl⟩
  | cons m below ih =>
      refine ⟨⟨hcomplete.1, named hs⟩, _, hascending, ?_⟩
      rw [assignments_eq, List.forall₂_map_left_iff, List.forall₂_map_right_iff, List.forall₂_same]
      intro x hx
      have hbranch := Child.sound_branch.1 (hs.tended.holds.each x hx)
      obtain ⟨hplace, hplaced⟩ := hplaced x hx
      refine ⟨hplace, rfl, ih hbranch ?_ ?_ x.2.node.children.table.ascending⟩
      · exact congrArg Post.level hbranch.stands ▸ hplaced
      · exact hcomplete.2 _ (List.mem_map_of_mem hx)

end Node

theorem Children.map_spots (children : Children below) :
    children.spots.map (fun t => (t.partition, t.keys)) =
      (children.table.entries.map Child.assignment).flatMap (Assignment.ways below) := by
  induction below with
  | nil =>
      rw [spots_eq, List.map_flatMap, List.flatMap_map]
      exact List.flatMap_congr fun _ _ => rfl
  | cons m below ih =>
      rw [spots_eq, List.map_flatMap, List.flatMap_map]
      refine List.flatMap_congr fun x _ => ?_
      have hx := congrArg (List.map fun way => (way.1, x.2.key :: way.2)) (ih x.2.node.children)
      rw [List.map_map] at hx
      rw [Child.spots, List.map_map, Assignment.ways, Child.assignment, Node.assignments_eq]
      exact hx

namespace Context

variable {c c' : Context} {runtime : Runtime} {s : Statement} {strict marked : Prop}

theorem ways_assignments (c : Context) :
    c.assignments.flatMap (Assignment.ways c.declaration.inner) =
      c.leaves.map fun ℓ => (ℓ.partition, ℓ.path.keys) := by
  rw [assignments, leaves]
  cases c.root with
  | none => rfl
  | some root =>
      have hspots := congrArg (List.map fun t : Spot => (t.partition, t.keys))
        (root.map_spot_leaves [])
      rw [List.map_map, List.map_map] at hspots
      dsimp only
      rw [root.assignments_eq, ← Children.map_spots]
      exact hspots.symm

theorem pathOf?_eq_ways (c : Context) (p : UInt32) :
    c.pathOf? p = ((c.assignments.flatMap (Assignment.ways c.declaration.inner)).find? fun way =>
      way.1 = p).map Prod.snd := by
  rw [ways_assignments, List.find?_map, Option.map_map]
  rfl

theorem Sound.allocated_ways (h : c.Sound strict) : c.allocatedIds.Perm
    (c.assignments.flatMap (Assignment.partitions c.declaration.inner)) := by
  have hways := congrArg (List.map Prod.fst) c.ways_assignments
  rw [List.map_map, List.map_flatMap] at hways
  have hleaves : c.assignments.flatMap (Assignment.partitions c.declaration.inner) =
      c.leaves.map Leaf.partition := hways
  rw [hleaves]
  exact h.allocated

theorem awaken_replants (hwilling : runtime.Willing) {xs : List Assignment}
    (hrecovery : c.recovery = some xs)
    (hregrow : Assignment.Regrow c.now c.declaration.inner c.declaration.outer xs)
    (hfree : c.books.Free c.options.limit
      (xs.flatMap (Assignment.partitions c.declaration.inner)))
    (hmarked : marked → ∀ l ∈ c.declaration.levels, l.kind ≠ .temporal) :
    ∃ root books,
      awaken runtime c = (.ok (), { c with root := some root, recovery := none, books }) ∧
      root.assignments c.declaration.inner = xs ∧
      (marked → ∃ qs, books.trace.started = c.books.trace.started ++ qs ∧
        ∀ q ∈ qs, q.recovering = true) := by
  let env := c.setting runtime
  obtain ⟨hl, hinner⟩ := List.forall_mem_cons.1 c.declaration.sound
  obtain rfl : xs = c.activation.recovered := by rw [activation, hrecovery, Option.getD_some]
  have hgrown := Setting.activate_replants (env.replants hwilling c.declaration.inner hinner) hl
    hmarked (a := c.activation) (b := c.bare.2) rfl rfl hregrow ⟨hfree.distinct, hfree.room⟩
    ⟨c.books.nextController⟩ 0 1 []
  have hdrive : Ends (fun _ p => Children.Replanted marked
      (c.declaration.outer.replay c.now c.activation.recovered) c.bare.2 (p.1.children, p.2))
      (fun _ _ => False)
      (env.drive c.declaration.inner [] (fun life => Controller.activate life c.activation)
        c.bare) :=
    Setting.drive_ends hgrown
  have hawaken := (ends_awaken hdrive).imp (fun _ _ h => h)
    fun _ _ ⟨_, _, _, hfailed⟩ => (hfailed : False)
  obtain ⟨⟨⟩, _, hresult, root, books, rfl, hreplanted⟩ := hawaken.ok
  refine ⟨root, books, hresult, ?_, hreplanted.started⟩
  rw [root.assignments_eq]
  exact hreplanted.assignments hregrow hl

/-- A context with the same partitions as another one, in the same order, under the same
identifiers and ways of keys. -/
structure Resumes (c' c : Context) : Prop where
  assignments : c'.assignments = c.assignments
  allocated : c'.allocatedIds = c.allocatedIds
  paths : ∀ p, c'.pathOf? p = c.pathOf? p

theorem resumes_of_assignments (hsound : c.Sound strict) (hsound' : c'.Sound strict)
    (hdeclaration : c'.declaration = c.declaration) (h : c'.assignments = c.assignments) :
    c'.Resumes c where
  assignments := h
  allocated := by
    have hallocated := hsound'.allocated_ways
    rw [hdeclaration, h] at hallocated
    exact List.eq_of_perm_of_ascending c'.books.ids.inUse.ascending c.books.ids.inUse.ascending
      (hallocated.trans hsound.allocated_ways.symm)
  paths p := by rw [pathOf?_eq_ways, pathOf?_eq_ways, hdeclaration, h]

theorem sound_of_attach_new {d : Declaration} {o : Options} {m : Option Metrics}
    {recovery : Option (List Assignment)} {now : Int64} {r : Except Error Unit}
    (h : attach runtime s { Context.new d o m recovery with now } = (r, c')) : c'.Sound strict := by
  have hadvance : Keeps (Sound strict) (advance runtime now) := keeps_advance
  have hattach : Keeps (Sound strict) (attach runtime s) := keeps_attach
  have hfresh : Sound strict { Context.new d o m recovery with now } := (hadvance _ sound_new).state
  have hsound := (hattach _ hfresh).state
  rwa [h] at hsound

theorem attach_resumes (hsound : c.Sound True) (hplaced : c.Placed) (hactive : c.isActive = true)
    {metrics : Option Metrics} {now : Int64}
    (hcomplete : Assignment.Complete now c.declaration.levels c.assignments)
    (hmarked : marked → ∀ l ∈ c.declaration.levels, l.kind ≠ .temporal)
    (hwilling : runtime.Willing)
    (hvalid : Declaration.checkAll (fun l => Level.validate l s) c.declaration.levels = .ok ()) :
    ∃ c', attach runtime s
        { Context.new c.declaration c.options metrics (some c.assignments) with now } =
          (.ok (), c') ∧
      c'.Resumes c ∧ (marked → ∀ q ∈ c'.books.trace.started, q.recovering = true) := by
  obtain ⟨root, hroot⟩ := Option.isSome_iff_exists.1 hactive
  have hassignments : c.assignments = root.assignments c.declaration.inner := by
    rw [assignments, hroot]
  obtain ⟨id, hs⟩ := hsound.tree root hroot
  let fresh : Context :=
    { Context.new c.declaration c.options metrics (some c.assignments) with now }
  have hregrow : Assignment.Regrow now c.declaration.inner c.declaration.outer c.assignments := by
    rw [hassignments] at hcomplete ⊢
    have hlevel : root.controller.level = (c.rootPost id).level :=
      congrArg Post.level hs.manned.stands
    have htree : root.children.Placed root.controller.level := (hplaced root hroot).2
    exact Node.Sound.regrow hs.manned (hlevel ▸ htree) hcomplete
  have hfree : fresh.books.Free c.options.limit
      (c.assignments.flatMap (Assignment.partitions c.declaration.inner)) := by
    have hperm := hsound.allocated_ways
    refine ⟨hperm.nodup_iff.1 c.books.ids.nodup_ids, fun n hn => ?_⟩
    rw [List.length_append, ← hperm.length_eq]
    exact Nat.le_trans (Nat.le_of_eq (Nat.zero_add _)) (hs.accounts.limit n hn)
  obtain ⟨root', books, hawaken, hroot', hstarted⟩ :=
    awaken_replants (c := { fresh with statements := [s] }) hwilling rfl hregrow hfree hmarked
  let c' : Context := { fresh with statements := [s], root := some root', recovery := none, books }
  have hattach : attach runtime s fresh = (.ok (), c') :=
    (attach_ok_iff rfl).2 ⟨rfl, hvalid, hawaken⟩
  have hsound' : c'.Sound True := sound_of_attach_new hattach
  refine ⟨c', hattach, resumes_of_assignments hsound hsound' rfl hroot', fun hmark => ?_⟩
  obtain ⟨qs, hqs, hrecovering⟩ := hstarted hmark
  have htrace : books.trace.started = qs := hqs
  intro q hq
  exact hrecovering q (htrace ▸ hq)

/-- Keyed levels and hash levels without preallocation recreate all that their controllers
started. -/
theorem lazy_levels_resume (h : Reachable Operation.Regular c) (hactive : c.isActive = true)
    (hlazy : ∀ l ∈ c.declaration.levels, l.Lazy) (metrics : Option Metrics)
    (hwilling : runtime.Willing)
    (hvalid : Declaration.checkAll (fun l => Level.validate l s) c.declaration.levels = .ok ()) :
    ∃ c', attach runtime s (Context.new c.declaration c.options metrics (some c.assignments)) =
        (.ok (), c') ∧
      c'.Resumes c ∧ ∀ q ∈ c'.books.trace.started, q.recovering = true := by
  have hsound : c.Sound True := h.sound fun _ _ hop => hop
  have hkind : True → ∀ l ∈ c.declaration.levels, l.kind ≠ .temporal :=
    fun _ l hl => (hlazy l hl).kind_ne
  obtain ⟨c', hattach, hresumes, hrecovering⟩ := attach_resumes hsound h.placed hactive
    (Assignment.complete_of_lazy hlazy) hkind hwilling hvalid
  exact ⟨c', hattach, hresumes, hrecovering trivial⟩

def baskets : Declaration :=
  { name := "baskets"
    outer := .keyed { name := "user", items := [⟨"Page", ["user"]⟩] }
    inner :=
      [.hash { name := "basket", eventType := "Page", property := "item", granularity := 4 }]
    sound := by decide
    distinct := by decide }

theorem baskets_lazy : ∀ l ∈ baskets.levels, l.Lazy := by
  simp [baskets, Declaration.levels, Level.Lazy]

def basket : Context :=
  (perform .collecting (.process page)
    (perform .collecting (.attach seen) (Context.new baskets)).2).2

theorem reachable_basket : Reachable Operation.Regular basket :=
  .step _ _ (.step _ _ (.new ..) trivial) trivial

theorem basket_resumes : basket.allocatedIds = [0] ∧
    ∃ c', attach .collecting seen (Context.new baskets {} none (some basket.assignments)) =
        (.ok (), c') ∧
      c'.Resumes basket ∧ ∀ q ∈ c'.books.trace.started, q.recovering = true := by
  refine ⟨by decide +kernel, ?_⟩
  exact lazy_levels_resume reachable_basket (by decide +kernel) baskets_lazy none
    Runtime.willing_collecting rfl

def intruded : Context :=
  (perform .collecting (.instantiate ⟨1⟩ { path := 7, key := .category "other" }) basket).2

/-- What a caller started is lost if its controller cannot recreate it. -/
theorem intruded_not_resumed :
    ¬ ∀ (c : Context) (runtime : Runtime) (s : Statement),
      Reachable (fun _ => True) c → c.isActive = true →
      (∀ l ∈ c.declaration.levels, l.Lazy) → runtime.Willing →
      Declaration.checkAll (fun l => Level.validate l s) c.declaration.levels = .ok () →
      ∃ c', attach runtime s (Context.new c.declaration c.options none (some c.assignments)) =
          (.ok (), c') ∧
        c'.Resumes c ∧ ∀ q ∈ c'.books.trace.started, q.recovering = true := by
  intro h
  have hreachable : Reachable (fun _ => True) intruded :=
    .step _ _ (reachable_basket.mono fun _ _ => trivial) trivial
  obtain ⟨c', hattach, hresumes, -⟩ := h intruded .collecting seen hreachable (by decide +kernel)
    baskets_lazy Runtime.willing_collecting rfl
  have hids : intruded.allocatedIds = [0, 1] := by decide +kernel
  have hids' : (attach .collecting seen
      (Context.new baskets {} none (some intruded.assignments))).2.allocatedIds = [0] := by
    decide +kernel
  have hlost : c'.allocatedIds = [0] :=
    (congrArg (fun r => r.2.allocatedIds) hattach).symm.trans hids'
  rw [hresumes.allocated, hids] at hlost
  cases hlost

/-- Levels of all kinds but episodes recreate their children at the same time of day, if all that
start by themselves were there and time ranges had nothing to hand down. -/
theorem complete_levels_resume (h : Reachable Operation.Regular c) (hactive : c.isActive = true)
    (hcomplete : Assignment.Complete c.now c.declaration.levels c.assignments)
    (metrics : Option Metrics) (hwilling : runtime.Willing)
    (hvalid : Declaration.checkAll (fun l => Level.validate l s) c.declaration.levels = .ok ()) :
    ∃ c', attach runtime s (advance runtime c.now
        (Context.new c.declaration c.options metrics (some c.assignments))).2 = (.ok (), c') ∧
      c'.Resumes c := by
  have hsound : c.Sound True := h.sound fun _ _ hop => hop
  have hmarked : False → ∀ l ∈ c.declaration.levels, l.kind ≠ .temporal := False.elim
  obtain ⟨c', hattach, hresumes, -⟩ := attach_resumes hsound h.placed hactive hcomplete hmarked
    hwilling hvalid
  exact ⟨c', hattach, hresumes⟩

def shifts : Declaration :=
  { name := "shifts"
    outer := .category
      { name := "team", eventType := "Page", items := [⟨"red", []⟩, ⟨"blue", []⟩] }
    inner :=
      [.hash
        { name := "desk", eventType := "Page", property := "user", granularity := 2
          preallocate := true },
       .temporal { name := "day", start := 0, stop := 100 }]
    sound := by decide
    distinct := by decide }

def onDuty : Context := (perform .collecting (.attach seen) (Context.new shifts)).2

theorem reachable_onDuty : Reachable Operation.Regular onDuty := .step _ _ (.new ..) trivial

theorem onDuty_resumes : onDuty.allocatedIds = [0, 1, 2, 3] ∧
    ∃ c', attach .collecting seen (advance .collecting onDuty.now
        (onDuty.restarted onDuty.assignments)).2 = (.ok (), c') ∧ c'.Resumes onDuty := by
  refine ⟨by decide +kernel, ?_⟩
  exact complete_levels_resume reachable_onDuty (by decide +kernel) (by decide +kernel) _
    Runtime.willing_collecting (by decide +kernel)

def daily : Declaration :=
  { name := "daily"
    outer := .temporal { name := "day", start := 0, stop := 100 }
    inner := [.keyed { name := "user", items := [⟨"Page", ["user"]⟩] }]
    sound := by decide
    distinct := by decide }

def today : Context :=
  (perform .collecting (.process page)
    (perform .collecting (.attach seen) (Context.new daily)).2).2

theorem today_not_resumed :
    ¬ ∀ (c : Context) (runtime : Runtime) (s : Statement),
      Reachable Operation.Regular c → c.isActive = true → c.options.limit = none →
      (∀ l ∈ c.declaration.levels, l.kind ≠ .initiatedTerminated) → runtime.Willing →
      s ∈ c.statements →
      ∃ c', attach runtime s (advance runtime c.now
          (Context.new c.declaration c.options none (some c.assignments))).2 = (.ok (), c') ∧
        ∀ ℓ ∈ c.leaves, c'.pathOf? ℓ.partition = some ℓ.path.keys := by
  intro h
  have hreachable : Reachable Operation.Regular today :=
    .step _ _ (.step _ _ (.new ..) trivial) trivial
  obtain ⟨c', hattach, hpaths⟩ := h today .collecting seen hreachable (by decide +kernel) rfl
    (by decide) Runtime.willing_collecting (List.mem_singleton_self _)
  have hpath : (attach .collecting seen (advance .collecting today.now
      (Context.new daily {} none (some today.assignments))).2).2.pathOf? 0 = none := by
    decide +kernel
  have hlost : c'.pathOf? 0 = none := (congrArg (fun r => r.2.pathOf? 0) hattach).symm.trans hpath
  have hleaf : 0 ∈ today.leaves.map Leaf.partition := by decide +kernel
  obtain ⟨ℓ, hℓ, hpartition⟩ := List.mem_map.1 hleaf
  have hfound := hpaths ℓ hℓ
  rw [hpartition, hlost] at hfound
  cases hfound

end Context

end EventContexts
