import EventContexts.Proofs.Conduct
import EventContexts.Proofs.Subtrees
/-!
The clock ticks through a tree: each controller reacts in its turn, and what its children make of
the time as they wake up is what they would have made of it in theirs.
-/

namespace EventContexts

open Act

variable {now : Int64} {S S' F : Scheme → Prop}

/-- What the clock makes of every controller: `S` of one that has reacted or woken up, `F` of one
that fails to react. -/
structure Scheme.Timed (now : Int64) (S F : Scheme → Prop) : Prop where
  tick : ∀ {σ : Type} (life : Lifecycle σ) {l : Level}, l.flaw? = none →
    Triple (fun p : Scheme × σ => p.1.level = l) (Scheme.tick life now)
      (fun _ p => S p.1) fun _ p => F p.1
  activate : ∀ {σ : Type} (life : Lifecycle σ) {l : Level} {a : Activation}, l.flaw? = none →
    a.now = now → a.trigger = none →
    Triple (fun p : Scheme × σ => p.1 = Scheme.ofLevel l) (Scheme.activate life a)
      (fun _ p => S p.1) fun _ _ => True
  weaken : ∀ s, S s → F s

def Children.Each (P : Controller → Prop) : (below : List Level) → Children below → Prop
  | [], _ => True
  | _ :: below, branches =>
      let branches : Table (Branch (Children below)) := branches
      ∀ e ∈ branches.entries, P e.2.node.controller ∧ e.2.node.children.Each P below

section each

variable {P P' : Controller → Prop} {below : List Level} {path : Path} {owner : Controller}
  {env : Setting} {children : Children below}

theorem Children.each_iff {id : ControllerId} {depth : Nat} : children.Each P below ↔
    ∀ x ∈ children.table.entries.flatMap (Child.entries id depth), P x.controller := by
  induction below generalizing id depth with
  | nil =>
      refine (iff_of_true trivial fun x hx => ?_)
      obtain ⟨e, -, hx⟩ := List.mem_flatMap.1 hx
      cases hx
  | cons l below ih =>
      have hbranch (e : UInt32 × Branch (Children below)) :
          (∀ x ∈ e.2.node.entries below (some id) e.1 (depth + 1), P x.controller) ↔
            P e.2.node.controller ∧ e.2.node.children.Each P below := by
        rw [Node.entries_eq, List.forall_mem_cons, Node.controller_entry, ih]
      simp only [List.mem_flatMap, forall_exists_index, and_imp]
      constructor
      · exact fun h x e he => (hbranch e).2 (h e he) x
      · exact fun h e he => (hbranch e).1 fun x => h x e he

theorem Children.each_empty : (Children.empty below).Each P below := by
  cases below with
  | nil => trivial
  | cons l below => exact fun e he => (List.not_mem_nil he).elim

theorem Children.Each.erase (h : children.Each P below) {k : UInt32} :
    (children.erase k).Each P below := by
  cases below with
  | nil => trivial
  | cons l below => exact fun e he => h e (Table.mem_erase.1 he).1

theorem Children.Each.mono (h : children.Each P below) (hP : ∀ c, P c → P' c) :
    children.Each P' below := by
  induction below with
  | nil => trivial
  | cons l below ih => exact fun e he => ⟨hP _ (h e he).1, ih (h e he).2⟩

theorem Setting.lifecycle_each (htimed : Scheme.Timed env.now S F)
    (hP : ∀ c : Controller, S c.scheme → P c) (hl : ∀ l ∈ below, l.flaw? = none) :
    (env.lifecycle below path owner).Honours (fun r => r.trigger = none)
      (fun _ s => s.1.Each P below) := by
  have hstop {below : List Level} {id : ControllerId} {h : Handle} :
      Keeps (fun s => s.1.Each P below) (env.endChild none below id h) :=
    keeps_endChild Children.Each.erase
  induction below generalizing path owner with
  | nil => exact ⟨fun _ _ => fun _ _ => ends_of_state trivial, fun _ => hstop⟩
  | cons m below ih =>
      refine ⟨fun {r _} hr _ => ?_, fun _ => hstop⟩
      rintro ⟨children, b⟩ hs
      let branches : Table (Branch (Children below)) := children
      simp only [lifecycle, startChild]
      split
      · exact hs
      · let fresh := Controller.create m ⟨b.nextController⟩ r.path (owner.nesting + 1)
        let life := env.lifecycle below (path ++ [⟨owner.level, r.key, r.properties⟩]) fresh
        have hm : m.flaw? = none := hl m (List.mem_cons_self ..)
        have hlife : life.Honours (fun r => r.trigger = none) fun _ s => s.1.Each P below :=
          ih fun l hl' => hl l (List.mem_cons_of_mem _ hl')
        have hfresh : fresh.post.level = m := Scheme.level_ofLevel m
        have hR : ∀ r' : Request, r'.Answers fresh.post.level (env.activation r) →
            r'.trigger = none := by
          refine fun r' hr' => Option.eq_none_iff_forall_ne_some.2 fun e he => ?_
          have hsome : r.trigger = some e := ((hr'.trigger (.inr hr) e).1 he).1
          rw [hr] at hsome
          cases hsome
        let start : Controller × (Children below × Books) :=
          (fresh, (Children.empty below, { b with nextController := b.nextController + 1 }))
        have hwoken : Ends (fun _ p => S p.1.scheme) (fun _ _ => True)
            (Controller.activate life (env.activation r) start) :=
          Controller.run_ends (htimed.activate life hm rfl hr _ rfl)
        have hmanned : Keeps
            (fun p => Controller.Manned fresh.post (fun _ s => s.1.Each P below) p.1 p.2)
            (Controller.activate life (env.activation r)) :=
          Controller.keeps_activate hlife ((congrArg Level.flaw? hfresh).trans hm) hR
        have hgrown := hmanned start ⟨rfl, by
          rw [hfresh]
          exact Scheme.tended_ofLevel Children.each_empty⟩
        split
        · next controller grown b' heq =>
            intro e he
            rcases Table.mem_insert.1 he with rfl | ⟨he, -⟩
            · exact ⟨hP _ (hwoken.congr heq), (hgrown.congr heq).tended.holds⟩
            · exact hs e he
        · exact hs

theorem Setting.drive_tick (htimed : Scheme.Timed env.now S F)
    (hP : ∀ c : Controller, S c.scheme → P c) {node : Node (Children below)} {b : Books}
    (hl : ∀ l ∈ node.controller.level :: below, l.flaw? = none)
    (hsound : node.controller.scheme.Sound) (heach : node.children.Each P below) :
    Ends (fun _ s => S s.1.controller.scheme ∧ s.1.children.Each P below)
      (fun _ s => F s.1.controller.scheme ∧ s.1.children.Each P below)
      (env.drive below path (fun life => Controller.tick life env.now) (node, b)) := by
  have hlife : (env.lifecycle below path node.controller).Honours (fun r => r.trigger = none)
      (fun _ s => s.1.Each P below) :=
    lifecycle_each htimed hP fun l hm => hl l (List.mem_cons_of_mem _ hm)
  have hmanned : Keeps
      (fun p => Controller.Manned node.controller.post (fun _ s => s.1.Each P below) p.1 p.2)
      (Controller.tick (env.lifecycle below path node.controller) env.now) :=
    Controller.keeps_tick hlife (fun _ hr => hr.1) env.now
  have htended : Tended node.controller.post.level (fun _ s => s.1.Each P below)
      node.controller.scheme (node.children, b) := ⟨rfl, hsound, heach⟩
  have hreacted : Ends (fun _ p => S p.1.scheme) (fun _ p => F p.1.scheme)
      (Controller.tick (env.lifecycle below path node.controller) env.now
        (node.controller, (node.children, b))) :=
    Controller.run_ends (htimed.tick _ (hl _ (List.mem_cons_self ..)) _ rfl)
  refine drive_ends ((hreacted.and (hmanned _ ⟨rfl, htended⟩)).imp ?_ ?_)
  · exact fun _ p hp => ⟨hp.1, hp.2.tended.holds⟩
  · exact fun _ p hp => ⟨hp.1, hp.2.tended.holds⟩

end each

namespace Node

variable {below deep : List Level} {path way : Path} {n n' : Node (Children deep)}
  {node node' : Node (Children below)} {Q : Leaf → Prop} {strict : Prop} {post : Post}

theorem Graft.suffix (h : Graft n n' way below path node node') : deep <:+ below := by
  induction h with
  | here => exact List.suffix_rfl
  | under _ _ ih => exact ih.trans (List.suffix_cons _ _)

theorem scheme_of_mem_entries (h : node.Sound Q strict below path post) {x : Entry}
    {parent : Option ControllerId} {place : UInt32} {depth : Nat}
    (hx : x ∈ node.entries below parent place depth) : x.controller.scheme.Sound := by
  induction below generalizing parent place depth path post with
  | nil =>
      obtain rfl := List.mem_singleton.1 hx
      exact h.tended.sound
  | cons l below ih =>
      rcases mem_entries_cons.1 hx with rfl | ⟨⟨k, b⟩, he, hx⟩
      · exact h.tended.sound
      · exact ih (Child.sound_branch.1 (h.tended.holds.each (k, b) he)) hx

theorem controller_mem_controllersAt {x : Entry} {parent : Option ControllerId} {place : UInt32}
    {depth : Nat} (hx : x ∈ node.entries below parent place depth) :
    ∃ i ≤ below.length, x.controller ∈ node.controllersAt below i := by
  induction below generalizing parent place depth with
  | nil =>
      obtain rfl := List.mem_singleton.1 hx
      exact ⟨0, Nat.le_refl _, List.mem_singleton_self _⟩
  | cons l below ih =>
      rcases mem_entries_cons.1 hx with rfl | ⟨e, he, hx⟩
      · exact ⟨0, Nat.zero_le _, List.mem_singleton_self _⟩
      · obtain ⟨i, hi, hmem⟩ := ih hx
        exact ⟨i + 1, Nat.succ_le_succ hi, List.mem_flatMap.2 ⟨e, he, hmem⟩⟩

end Node

namespace Context

variable {c : Context} {runtime : Runtime} {ids todo rest : List ControllerId} {id : ControllerId}

/-- A context in which the clock is ticking: all controllers but those listed are as `S` says. -/
structure Underway (S : Scheme → Prop) (ids : List ControllerId) (now : Int64)
    (todo : List ControllerId) (c : Context) : Prop where
  sound : c.Sound False
  clock : c.now = now
  suffix : todo <:+ ids
  current : ∀ x ∈ c.entries, x.id ∉ todo → S x.controller.scheme

theorem Underway.mono (h : Underway S ids now todo c) (hS : ∀ s, S s → S' s) :
    Underway S' ids now todo c :=
  ⟨h.sound, h.clock, h.suffix, fun x hx hnot => hS _ (h.current x hx hnot)⟩

theorem Underway.graft {root root' : Node (Children c.declaration.inner)} {deep : List Level}
    {way : Path} {n n' : Node (Children deep)}
    (h : Underway S ids now (n.controller.id :: rest) c) (hroot : c.root = some root)
    (hgraft : Node.Graft n n' way c.declaration.inner [] root root')
    (hid : n'.controller.id = n.controller.id) :
    n.children.Each (fun x => x.id ∉ rest → S x.scheme) deep ∧
      (S n'.controller.scheme → n'.children.Each (fun x => x.id ∉ rest → S x.scheme) deep →
        ∀ x ∈ root'.entries c.declaration.inner none 0 1, x.id ∉ rest →
          S x.controller.scheme) := by
  let P (x : Controller) : Prop := x.id ∉ rest → S x.scheme
  obtain ⟨pre, post, parent, place, depth, hbefore, hafter⟩ := hgraft.entries hid none 0 1
  rw [← entries_of_root hroot, Node.entries_eq, List.append_assoc, List.cons_append] at hbefore
  have hothers : ∀ x ∈ pre ++ (n.children.table.entries.flatMap
      (Child.entries n.controller.id depth) ++ post), P x.controller := by
    intro x hx hxrest
    have hids := (h.sound.tree root hroot).nodup_ids hroot
    rw [hbefore, (List.perm_middle.map Entry.id).nodup_iff, List.map_cons, List.nodup_cons,
      Node.id_entry] at hids
    have hne : x.id ≠ n.controller.id := fun h => hids.1 (List.mem_map.2 ⟨x, hx, h⟩)
    have hxmem : x ∈ c.entries := by
      rw [hbefore]
      exact List.perm_middle.mem_iff.2 (List.mem_cons_of_mem _ hx)
    exact h.current x hxmem fun h => (List.mem_cons.1 h).elim hne hxrest
  rw [List.forall_mem_append, List.forall_mem_append] at hothers
  obtain ⟨hpre, hunder, hpost⟩ := hothers
  refine ⟨Children.each_iff.2 hunder, fun hself heach => ?_⟩
  rw [hafter, Node.entries_eq]
  simp only [List.forall_mem_append, List.forall_mem_cons]
  refine ⟨⟨hpre, fun _ => ?_, Children.each_iff.1 heach⟩, hpost⟩
  rw [Node.controller_entry]
  exact hself

def tickAt (runtime : Runtime) (now : Int64) (id : ControllerId) : Act Context Unit := fun c =>
  (c.onRoot fun tree => Node.atController id (fun below path =>
    (c.setting runtime).drive below path fun life => Controller.tick life now) _ [] tree).getD
      (.ok (), c)

def tickEach (runtime : Runtime) (now : Int64) (ids : List ControllerId) : Act Context Unit :=
  driveEach runtime (fun life => Controller.tick life now) ids

theorem tickEach_eq : tickEach runtime now ids = forEach (tickAt runtime now) ids := rfl

theorem underway_step (htimed : Scheme.Timed now S F) :
    Triple (Underway S ids now (id :: rest)) (tickAt runtime now id)
      (fun _ => Underway S ids now rest) (fun _ => Underway F ids now rest) := by
  intro c h
  have ⟨hsound, hclock, hsuffix, hcurrent⟩ := h
  subst hclock
  have hrest : rest <:+ ids := (List.suffix_cons id rest).trans hsuffix
  let f (below : List Level) (path : Path) : Act (Node (Children below) × Books) Unit :=
    (c.setting runtime).drive below path fun life => Controller.tick life c.now
  have hstep : ((c.onRoot fun tree => Node.atController id f _ [] tree).getD (.ok (), c)).2.Sound
      False := by
    refine hsound.atController (fun hl => ?_) hsound
    have hbelow := fun l hm => hl l (List.mem_cons_of_mem _ hm)
    exact Setting.keeps_drive (c.setting runtime) Setting.staffed_policy hbelow
      fun life hlife => Controller.keeps_tick hlife (fun _ _ => trivial) c.now
  show Ends _ _ ((c.onRoot fun tree => Node.atController id f _ [] tree).getD (.ok (), c))
  rcases c.atController_cases id f (.ok (), c) with ⟨heq, hne⟩ | ⟨root, root', deep, way, n, hroot,
    rfl, hgraft, heq⟩
  · rw [heq]
    refine ⟨hsound, rfl, hrest, fun x hx hxrest => hcurrent x hx fun hmem => ?_⟩
    exact (List.mem_cons.1 hmem).elim (hne x hx) hxrest
  · rw [heq] at hstep ⊢
    have hup := hsound.tree root hroot
    obtain ⟨_, _, _, hmem⟩ := hgraft.entry_mem none 0 1
    rw [← entries_of_root hroot] at hmem
    have hl : ∀ l ∈ n.controller.level :: deep, l.flaw? = none := by
      obtain ⟨i, -, hlevel⟩ := (hup.posted hroot hmem).declared
      rw [Node.controller_entry] at hlevel
      refine List.forall_mem_cons.2 ⟨?_, fun l hl => ?_⟩
      · exact c.declaration.sound _ (List.mem_of_getElem? hlevel)
      · exact c.declaration.sound l (List.mem_cons_of_mem _ (hgraft.suffix.subset hl))
    have hscheme : n.controller.scheme.Sound := by
      obtain ⟨_, hs⟩ := hup
      rw [entries_of_root hroot] at hmem
      rw [← Node.controller_entry]
      exact Node.scheme_of_mem_entries hs.manned hmem
    have hS := h.graft hroot hgraft rfl
    have hF := (h.mono htimed.weaken).graft hroot hgraft rfl
    let P (x : Controller) : Prop := x.id ∉ rest → S x.scheme
    have hP : ∀ x : Controller, S x.scheme → P x := fun _ hx _ => hx
    have htimed' : Scheme.Timed (c.setting runtime).now S F := htimed
    have hticked : Ends (fun _ s => S s.1.controller.scheme ∧ s.1.children.Each P deep)
        (fun _ s => F s.1.controller.scheme ∧ s.1.children.Each P deep)
        (f deep way (n, c.books)) :=
      Setting.drive_tick htimed' hP hl hscheme hS.1
    rcases hf : f deep way (n, c.books) with ⟨r, n', b⟩
    rw [hf] at hticked hS hF hstep
    cases r with
    | ok u => exact ⟨hstep, rfl, hrest, hS.2 hticked.1 hticked.2⟩
    | error e =>
        refine ⟨hstep, rfl, hrest, hF.2 hticked.1 (hticked.2.mono fun x hx hnot => ?_)⟩
        exact htimed.weaken _ (hx hnot)

theorem controller_mem_controllers {x : Entry} (hx : x ∈ c.entries) :
    x.controller ∈ c.controllers := by
  cases hroot : c.root with
  | none => simp [entries, hroot] at hx
  | some root =>
      rw [entries_of_root hroot] at hx
      obtain ⟨i, hi, hmem⟩ := Node.controller_mem_controllersAt hx
      simp only [controllers, hroot, Node.controllers]
      exact List.mem_flatMap.2 ⟨i, List.mem_range.2 (Nat.lt_succ_of_le hi), hmem⟩

theorem controllers_with {now : Int64} :
    ({ c with now } : Context).controllers = c.controllers := by
  simp only [controllers]
  cases c.root <;> rfl

theorem underway_tickEach (htimed : Scheme.Timed now S F) (done : List ControllerId) :
    Triple (Underway S ids now (done ++ rest)) (tickEach runtime now done)
      (fun _ => Underway S ids now rest) (fun _ _ => True) := by
  induction done with
  | nil => exact triple_pure fun _ h => h
  | cons id done ih =>
      refine Triple.bind (Q := fun _ => Underway S ids now (done ++ rest)) ?_ fun _ => ih
      exact (underway_step htimed).imp (fun _ h => h) (fun _ _ h => h) fun _ _ _ => trivial

theorem underway_start (h : c.Sound False) :
    Underway S (c.controllers.map Controller.id) now (c.controllers.map Controller.id)
      { c with now } := by
  refine ⟨⟨h.ids, h.active, h.idle, h.tree⟩, rfl, List.suffix_rfl, fun x hx hnot => absurd ?_ hnot⟩
  rw [entries_with] at hx
  exact List.mem_map_of_mem (controller_mem_controllers hx)

/-- The controllers whose turn does not come as the clock ticks, since one before them fails. -/
def missed (runtime : Runtime) (now : Int64) : List ControllerId → Context → List ControllerId
  | [], _ => []
  | id :: rest, c =>
      match tickAt runtime now id c with
      | (.ok (), c) => missed runtime now rest c
      | (.error _, _) => rest

theorem underway_missed (htimed : Scheme.Timed now S S) {todo : List ControllerId}
    (h : Underway S ids now todo c) :
    Underway S ids now (missed runtime now todo c) (tickEach runtime now todo c).2 := by
  induction todo generalizing c with
  | nil => exact h
  | cons id rest ih =>
      have hdone : Ends (fun _ => Underway S ids now rest) (fun _ => Underway S ids now rest)
          (tickAt runtime now id c) := underway_step htimed c h
      rw [tickEach_eq, forEach, bind_apply, missed]
      rcases hx : tickAt runtime now id c with ⟨_ | _, c'⟩
      · rw [hx] at hdone
        exact hdone
      · rw [hx] at hdone
        exact ih hdone

theorem advance_eq : advance runtime now c =
    tickEach runtime now (c.controllers.map Controller.id) { c with now } := by
  simp only [advance, tickEach, controllers_with]

end Context

end EventContexts
