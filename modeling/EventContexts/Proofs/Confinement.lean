import EventContexts.Proofs.Expiry
import EventContexts.Proofs.Recovery
import EventContexts.Proofs.RegimeContexts

namespace EventContexts

open Act

variable {σ : Type}

namespace Scheme

variable {s s' : Scheme} {key : Key} {h : Handle} {o : Occasion} {ranges : List BucketRange}

def ranges? : Scheme → Option (List BucketRange)
  | .hash c => c.ranges
  | _ => none

theorem ranges?_ofLevel {l : Level} : (ofLevel l).ranges? = none := by
  cases l <;> rfl

theorem ranges?_started : (s.started key h).ranges? = s.ranges? := by
  cases s <;> rfl

theorem ranges?_ended : (s.ended key).ranges? = s.ranges? := by
  cases s <;> rfl

theorem ranges?_notes (h : s.Notes o s') : s'.ranges? = s.ranges? := by
  cases h <;> rfl

theorem ranges?_forget : (s.forget h).ranges? = s.ranges? := by
  cases s with
  | temporal c =>
      simp only [forget]
      split
      · split <;> rfl
      · rfl
  | _ => rfl

theorem ranges?_confined (ranges : List BucketRange) :
    (s.confined ranges).ranges? = some ranges ∨ (s.confined ranges).ranges? = s.ranges? := by
  cases s with
  | hash c => exact .inl rfl
  | _ => exact .inr rfl

theorem bears_ranges? {life : Lifecycle σ} {r : Option (List BucketRange)} (ho : ¬ o.plain) :
    life.Bears o (fun s _ => s.ranges? = r) fun _ => True where
  start {s q} _ t hs := by
    rcases life.start q t with ⟨_ | _, _⟩
    · exact ⟨trivial, hs⟩
    · exact ranges?_started.trans hs
  stop {s k h} _ _ t hs := by
    rcases life.stop h t with ⟨_ | _, _⟩
    · exact ⟨trivial, ranges?_ended.trans hs⟩
    · exact ranges?_ended.trans hs
  notes hnotes hs := (ranges?_notes hnotes).trans hs
  plain hplain := absurd hplain ho
  refuses _ := trivial

theorem restrict_ranges? {life : Lifecycle σ} : Triple (fun _ => True) (restrict life ranges)
    (fun _ p => p.1.ranges? = some ranges) fun _ _ => True := by
  rintro ⟨s, t⟩ -
  cases s with
  | hash c =>
      have hbears : life.Bears ⟨none, False⟩ (fun s _ => s.ranges? = some ranges) fun _ => True :=
        bears_ranges? id
      exact (bears_restrict hbears ranges (.hash c, t) rfl).imp (fun _ _ h => h)
        fun _ _ _ => trivial
  | _ => trivial

theorem Sound.inside (h : s.Sound) (hr : s.ranges? = some ranges) {k : Key}
    (hk : k ∈ s.children.keys) :
    ∃ bucket, k = .hash bucket ∧ ∃ r ∈ ranges, r.contains bucket = true := by
  cases s with
  | hash c =>
      have hranges : c.ranges = some ranges := hr
      obtain ⟨bucket, rfl, hmaintained⟩ := h k hk
      rw [HashController.maintains, hranges] at hmaintained
      exact ⟨bucket, rfl, List.any_eq_true.1 hmaintained⟩
  | _ => cases hr

end Scheme

theorem regime_marks {F : ControllerId → Nat → Option (List BucketRange) → Prop} {o : Occasion}
    {since : Nat} (ho : ¬ o.plain) (hfresh : ∀ id n, since ≤ id.number → F id n none) :
    Regime o since (fun _ => True) (fun _ => True) fun _ x _ =>
      F x.id x.nesting x.scheme.ranges? where
  fresh {l _ id _ nesting} _ hid := by
    show F id nesting (Scheme.ofLevel l).ranges?
    rw [Scheme.ranges?_ofLevel]
    exact hfresh id nesting hid
  leaf {c _ _ r h} hc _ := by
    show F c.id c.nesting (c.scheme.started r.key h).ranges?
    rwa [Scheme.ranges?_started]
  branch {_ _ c _ _ r child} hc _ _ _ := by
    show F c.id c.nesting (c.scheme.started r.key (.branch c.id r.path child)).ranges?
    rwa [Scheme.ranges?_started]
  ended {_ c _ key _} hc _ _ _ := by
    show F c.id c.nesting (c.scheme.ended key).ranges?
    rwa [Scheme.ranges?_ended]
  notes {_ c _ s} hc hs := by
    show F c.id c.nesting s.ranges?
    rwa [Scheme.ranges?_notes hs]
  plain h := absurd h ho
  tells _ := trivial
  claimed _ _ := trivial
  occupied _ _ _ := trivial

theorem Node.le_depth {below : List Level} {node : Node (Children below)} {x : Entry}
    {parent : Option ControllerId} {place : UInt32} {depth : Nat}
    (hx : x ∈ node.entries below parent place depth) : depth ≤ x.depth := by
  induction below generalizing parent place depth with
  | nil =>
      obtain rfl := List.mem_singleton.1 hx
      exact Nat.le_refl _
  | cons l below ih =>
      rcases mem_entries_cons.1 hx with rfl | ⟨e, -, hx⟩
      · exact Nat.le_refl _
      · exact Nat.le_of_succ_le (ih hx)

theorem Node.mem_controllersAt {below : List Level} {node : Node (Children below)} {i : Nat}
    {x : Controller} {parent : Option ControllerId} {place : UInt32} {depth : Nat} :
    x ∈ node.controllersAt below i ↔
      ∃ y ∈ node.entries below parent place depth, y.controller = x ∧ y.depth = depth + i := by
  induction below generalizing i parent place depth with
  | nil =>
      simp only [entries, List.mem_singleton, exists_eq_left, controller_entry, depth_entry]
      cases i with
      | zero => simp [controllersAt, eq_comm]
      | succ i => simp [controllersAt]
  | cons l below ih =>
      let branches : Table (Branch (Children below)) := node.children
      cases i with
      | zero =>
          simp only [controllersAt, List.mem_singleton, mem_entries_cons]
          constructor
          · rintro rfl
            exact ⟨_, .inl rfl, controller_entry, depth_entry⟩
          · rintro ⟨y, rfl | ⟨e, he, hy⟩, hcontroller, hdepth⟩
            · exact hcontroller.symm.trans controller_entry
            · have hle := le_depth hy
              omega
      | succ i =>
          simp only [controllersAt, List.mem_flatMap, mem_entries_cons]
          constructor
          · rintro ⟨e, he, hx⟩
            have hunder : ∃ y ∈ e.2.node.entries below (some node.controller.id) e.1 (depth + 1),
                y.controller = x ∧ y.depth = depth + 1 + i := ih.1 hx
            obtain ⟨y, hy, hcontroller, hdepth⟩ := hunder
            exact ⟨y, .inr ⟨e, he, hy⟩, hcontroller, by omega⟩
          · rintro ⟨y, rfl | ⟨e, he, hy⟩, hcontroller, hdepth⟩
            · rw [depth_entry] at hdepth
              omega
            · exact ⟨e, he, ih.2 ⟨y, hy, hcontroller, by omega⟩⟩

/-- A call that sets ranges for a level, with the controllers that are there and those that it
tells. Controllers to come have later numbers. -/
structure Notice where
  level : Nat
  ranges : List BucketRange
  since : Nat
  live : List ControllerId
  told : List ControllerId
  live_of_told : ∀ id ∈ told, id ∈ live
  lt_of_live : ∀ id ∈ live, id.number < since

namespace Notice

variable {n : Notice} {todo : List ControllerId} {id : ControllerId} {nesting : Nat}
  {r : Option (List BucketRange)} {ranges : List BucketRange}

/-- What is known of a controller when all but those in the list have been told. -/
structure Holds (n : Notice) (todo : List ControllerId) (id : ControllerId) (nesting : Nat)
    (r : Option (List BucketRange)) : Prop where
  told : id ∈ n.told → id ∉ todo → r = some n.ranges
  free : id ∉ n.live → nesting = n.level → r = none
  level : id ∈ n.live → (nesting = n.level ↔ id ∈ n.told)

theorem not_live (hid : n.since ≤ id.number) : id ∉ n.live :=
  fun hlive => Nat.not_le_of_lt (n.lt_of_live id hlive) hid

theorem holds_fresh (hid : n.since ≤ id.number) : n.Holds todo id nesting none where
  told htold := absurd (n.live_of_told id htold) (not_live hid)
  free _ _ := rfl
  level hlive := absurd hlive (not_live hid)

theorem Holds.telling (h : n.Holds todo id nesting r) (htold : id ∈ n.told) :
    n.Holds todo id nesting (some n.ranges) where
  told _ _ := rfl
  free hfree := absurd (n.live_of_told id htold) hfree
  level := h.level

theorem Holds.elsewhere (h : n.Holds todo id nesting r) (hne : nesting ≠ n.level) :
    n.Holds todo id nesting (some ranges) where
  told htold := absurd ((h.level (n.live_of_told id htold)).2 htold) hne
  free _ heq := absurd heq hne
  level := h.level

end Notice

namespace Context

variable {c c' : Context} {runtime : Runtime} {op : Operation} {level : Nat}
  {ranges : List BucketRange} {F : ControllerId → Nat → Option (List BucketRange) → Prop}
  {strict : Prop} {x : Entry}

def idsAt (c : Context) (level : Nat) : List ControllerId :=
  match c.root with
  | some root => (root.controllersAt _ (level - 1)).map Controller.id
  | none => []

theorem entry_of_idsAt {id : ControllerId} (hid : id ∈ c.idsAt level) :
    ∃ x ∈ c.entries, x.id = id ∧ x.depth = 1 + (level - 1) := by
  rw [idsAt] at hid
  split at hid
  · next root hroot =>
      obtain ⟨y, hy, rfl⟩ := List.mem_map.1 hid
      have hentry : ∃ x ∈ root.entries c.declaration.inner none 0 1,
          x.controller = y ∧ x.depth = 1 + (level - 1) := Node.mem_controllersAt.1 hy
      obtain ⟨x, hx, rfl, hdepth⟩ := hentry
      rw [← entries_of_root hroot] at hx
      exact ⟨x, hx, rfl, hdepth⟩
  · cases hid

theorem live_of_idsAt : ∀ id ∈ c.idsAt level, id ∈ c.entries.map Entry.id := by
  intro id hid
  obtain ⟨x, hx, rfl, -⟩ := entry_of_idsAt hid
  exact List.mem_map_of_mem hx

theorem Sound.level_iff (hc : c.Sound strict) (hlevel : level ≠ 0) (hx : x ∈ c.entries) :
    x.level = level ↔ x.id ∈ c.idsAt level := by
  cases hroot : c.root with
  | none => simp [entries, hroot] at hx
  | some root =>
      have hup := hc.tree root hroot
      have hdepth : x.level = x.depth := (hup.posted hroot hx).level
      constructor
      · intro heq
        rw [idsAt, hroot]
        rw [entries_of_root hroot] at hx
        exact List.mem_map_of_mem (Node.mem_controllersAt.2 ⟨x, hx, rfl, by omega⟩)
      · intro hid
        obtain ⟨y, hy, heq, hat⟩ := entry_of_idsAt hid
        obtain rfl := hup.eq_of_id hroot hy hx heq
        omega

theorem Sound.lt_of_live (hc : c.Sound strict) :
    ∀ id ∈ c.entries.map Entry.id, id.number < c.books.nextController := by
  intro id hid
  cases hroot : c.root with
  | none => simp [entries, hroot] at hid
  | some root =>
      rw [entries_of_root hroot, Node.ids_entries] at hid
      exact (hc.tree root hroot).accounts.controllersGiven id hid

def Marked (F : ControllerId → Nat → Option (List BucketRange) → Prop) (c : Context) : Prop :=
  ∀ x ∈ c.entries, F x.id x.level x.controller.scheme.ranges?

theorem Marked.reigns (h : c.Marked F) {since : Nat} (hsince : since ≤ c.books.nextController) :
    c.Reigns (fun _ => True)
      (Steady (fun _ x _ => F x.id x.nesting x.scheme.ranges?) fun _ => True) since :=
  (Reigns.of_entries (F := fun x _ => F x.id x.nesting x.scheme.ranges?) (fun _ _ => trivial)
    hsince h).mono fun _ _ _ h => ⟨h, trivial⟩

theorem Reigns.marked {since : Nat} (h : c.Reigns (fun _ => True)
    (Steady (fun _ x _ => F x.id x.nesting x.scheme.ranges?) fun _ => True) since) :
    c.Marked F ∧ since ≤ c.books.nextController :=
  ⟨(h.mono fun _ _ _ h => h.1).entries, h.since⟩

theorem confined_marked {x : Controller}
    (htell : ∀ r, F x.id x.nesting r → F x.id x.nesting (some ranges))
    (h : F x.id x.nesting x.scheme.ranges?) :
    F x.id x.nesting (x.scheme.confined ranges).ranges? := by
  rcases x.scheme.ranges?_confined ranges with heq | heq
  · rw [heq]
    exact htell _ h
  · rwa [heq]

theorem Marked.perform (h : c.Marked F) (hop : op.Regular)
    (hfresh : ∀ id n, c.books.nextController ≤ id.number → F id n none)
    (htell : ∀ level ranges, op = .restrict level ranges → level ≠ 0 →
      ∀ id ∈ c.idsAt level, ∀ n r, F id n r → F id n (some ranges)) :
    (perform runtime op c).2.Marked F ∧
      c.books.nextController ≤ (perform runtime op c).2.books.nextController := by
  have hdone : Ends _ _ (Context.perform runtime op c) :=
    perform_reigns False hop (regime_marks id hfresh) habit_any False.elim (fun _ _ _ h => h) ?_ ?_
      (h.reigns (Nat.le_refl _))
  · exact ((hdone.imp (fun _ _ h => h) fun _ _ h => h.2).state).marked
  · intro level ranges heq hlevel root hroot below x xs hid hx
    refine confined_marked (htell level ranges heq hlevel x.id ?_ x.nesting) hx
    rw [idsAt, hroot]
    exact hid
  · intro g termination _ below x xs hx _ _
    refine ⟨?_, trivial⟩
    show F x.id x.nesting (x.scheme.forget g).ranges?
    rw [Scheme.ranges?_forget]
    exact hx.1

def notice (c : Context) (hc : c.Sound strict) (level : Nat) (ranges : List BucketRange) :
    Notice where
  level := level
  ranges := ranges
  since := c.books.nextController
  live := c.entries.map Entry.id
  told := c.idsAt level
  live_of_told := live_of_idsAt
  lt_of_live := hc.lt_of_live

def restrictEach (runtime : Runtime) (ranges : List BucketRange) (ids : List ControllerId) :
    Act Context Unit :=
  driveEach runtime (fun life => Controller.restrict life ranges) ids

/-- A context in which a call is being carried out: the controllers in the list are still to be
told. -/
structure Telling (n : Notice) (todo : List ControllerId) (c : Context) : Prop where
  sound : c.Sound False
  since : n.since ≤ c.books.nextController
  marked : c.Marked (n.Holds todo)

theorem restrictEach_one {id : ControllerId} : restrictEach runtime ranges [id] c =
    (c.onRoot fun tree => Node.atController id (fun below path =>
      (c.setting runtime).drive below path fun life => Controller.restrict life ranges)
        _ [] tree).getD (.ok (), c) := by
  rw [restrictEach, driveEach]
  exact forEach_singleton

theorem told_of_restrictEach {id : ControllerId} (hc : c.Sound False) :
    Ends (fun _ c => ∀ x ∈ c.entries, x.id = id → x.controller.scheme.ranges? = some ranges)
      (fun _ _ => True) (restrictEach runtime ranges [id] c) := by
  have hsound : (restrictEach runtime ranges [id] c).2.Sound False :=
    (keeps_driveEach (fun hlife => Controller.keeps_restrict hlife (fun _ _ => trivial) ranges) c
      hc).state
  let f (below : List Level) (path : Path) : Act (Node (Children below) × Books) Unit :=
    (c.setting runtime).drive below path fun life => Controller.restrict life ranges
  rw [restrictEach_one] at hsound ⊢
  rcases c.atController_cases id f (.ok (), c) with ⟨heq, hne⟩ | ⟨root, root', deep, way, n, hroot,
    rfl, hgraft, heq⟩
  · rw [heq]
    exact fun x hx hid => absurd hid (hne x hx)
  · rw [heq] at hsound ⊢
    have hran : Ends (fun _ s => s.1.controller.scheme.ranges? = some ranges) (fun _ _ => True)
        (f deep way (n, c.books)) := by
      refine Setting.drive_ends (Controller.run_ends ?_)
      exact Scheme.restrict_ranges? (n.controller.scheme, (n.children, c.books)) trivial
    rcases hdrive : f deep way (n, c.books) with ⟨_ | _, n', books⟩
    · trivial
    · have hn' : (f deep way (n, c.books)).2.1.controller.id = n.controller.id := rfl
      rw [hdrive] at hran hsound hgraft hn'
      let c' : Context := { c with root := some root', books }
      have hentries : c'.entries = root'.entries c.declaration.inner none 0 1 := rfl
      obtain ⟨pre, post, parent, place, depth, -, hafter⟩ := hgraft.entries hn' none 0 1
      have hmem : n'.entry deep parent place depth ∈ c'.entries := by
        rw [hentries, hafter]
        exact List.mem_append_left _ (List.mem_append_right _ Node.entry_mem_entries)
      intro x hx hid
      -- numbers are distinct in the tree that is left
      have hsame : x = n'.entry deep parent place depth :=
        (hsound.tree root' rfl).eq_of_id rfl hx hmem (hid.trans (hn'.symm.trans Node.id_entry.symm))
      rw [hsame, Node.controller_entry]
      exact hran

theorem telling_step {n : Notice} {id : ControllerId} {rest : List ControllerId}
    (hid : id ∈ n.told) : Triple (Telling n (id :: rest)) (restrictEach runtime n.ranges [id])
      (fun _ => Telling n rest) fun _ _ => True := by
  intro c h
  have hsound : Ends (fun _ => Sound False) (fun _ => Sound False)
      (restrictEach runtime n.ranges [id] c) :=
    keeps_driveEach (fun hlife => Controller.keeps_restrict hlife (fun _ _ => trivial) n.ranges) c
      h.sound
  have hmarked : Ends
      (fun _ c => c.Marked (n.Holds (id :: rest)) ∧ n.since ≤ c.books.nextController)
      (fun _ _ => True) (restrictEach runtime n.ranges [id] c) := by
    have hregime : Regime ⟨none, False⟩ n.since (fun _ => True) (fun _ => True) fun _ x _ =>
        n.Holds (id :: rest) x.id x.nesting x.scheme.ranges? :=
      regime_marks (fun h => h) fun _ _ => Notice.holds_fresh
    have hserved : (Operation.restrict n.level n.ranges).Habit n.since (fun _ => True)
        (fun _ => True) fun _ => True := habit_any
    refine (driveEach_reigns hregime hserved.wakes hserved.lasting ?_
      (fun life => hserved.restrict life _ _ rfl) c (h.marked.reigns h.since)).imp
        (fun _ _ h => h.marked) fun _ _ _ => trivial
    rintro _ hmem below x t life hx - ht hlife
    have htold : x.id ∈ n.told := by
      rw [hx, List.mem_singleton.1 hmem]
      exact hid
    have hready : Midway (fun _ x _ => n.Holds (id :: rest) x.id x.nesting x.scheme.ranges?)
        (fun _ => True) n.since x below (x.scheme.confined n.ranges) t :=
      ⟨confined_marked (fun _ h => h.telling htold) ht.node, ht.under, ht.since⟩
    exact Controller.bears_run (Scheme.bears_restrict hlife n.ranges (x.scheme, t) hready)
  refine ((hsound.and hmarked).and (told_of_restrictEach h.sound)).imp ?_ fun _ _ _ => trivial
  rintro _ c' ⟨⟨hsound', hmarked', hsince'⟩, htold'⟩
  refine ⟨hsound', hsince', fun x hx => ⟨fun htell hrest => ?_, (hmarked' x hx).free,
    (hmarked' x hx).level⟩⟩
  by_cases heq : x.id = id
  · exact htold' x hx heq
  · exact (hmarked' x hx).told htell fun hmem => (List.mem_cons.1 hmem).elim heq hrest

theorem telling_restrictEach {n : Notice} {todo : List ControllerId}
    (htodo : ∀ id ∈ todo, id ∈ n.told) : Triple (Telling n todo)
      (restrictEach runtime n.ranges todo) (fun _ => Telling n []) fun _ _ => True := by
  induction todo with
  | nil => exact triple_pure fun _ h => h
  | cons id rest ih =>
      have hstep : Triple (Telling n (id :: rest)) (restrictEach runtime n.ranges [id])
          (fun _ => Telling n rest) fun _ _ => True :=
        telling_step (htodo id (List.mem_cons_self ..))
      have hrest : Triple (Telling n rest) (restrictEach runtime n.ranges rest)
          (fun _ => Telling n []) fun _ _ => True :=
        ih fun id hid => htodo id (List.mem_cons_of_mem _ hid)
      rw [restrictEach, driveEach] at hstep hrest ⊢
      exact Triple.bind (fun c hc => (hstep c hc).congr forEach_singleton) fun _ => hrest

theorem Sound.notified (hc : c.Sound False) (hok : restrict runtime level ranges c = (.ok (), c')) :
    Telling (c.notice hc level ranges) [] c' := by
  rw [restrict] at hok
  split at hok
  · cases hok
  · next hlevel =>
      have hlevel : level ≠ 0 := fun h => hlevel (.inl h)
      have hstart : Telling (c.notice hc level ranges) (c.idsAt level) c := by
        refine ⟨hc, Nat.le_refl _, fun x hx => ⟨fun htold htodo => absurd htold htodo,
          fun hfree => absurd (List.mem_map_of_mem hx) hfree, fun _ => hc.level_iff hlevel hx⟩⟩
      have hall : Triple (Telling (c.notice hc level ranges) (c.idsAt level))
          (restrictEach runtime ranges (c.idsAt level))
          (fun _ => Telling (c.notice hc level ranges) []) fun _ _ => True :=
        telling_restrictEach fun _ h => h
      exact (hall c hstart).congr hok

inductive RunsOn (level : Nat) (c : Context) : Context → Prop where
  | refl : RunsOn level c c
  | step {c' : Context} (runtime : Runtime) (op : Operation) : RunsOn level c c' → op.Regular →
      (∀ ranges, op ≠ .restrict level ranges) → RunsOn level c (perform runtime op c').2

theorem Telling.perform {n : Notice} (h : Telling n [] c) (hop : op.Regular)
    (hother : ∀ ranges, op ≠ .restrict n.level ranges) :
    Telling n [] (Context.perform runtime op c).2 := by
  -- no controller of another level is one of this level
  let F (id : ControllerId) (nesting : Nat) (r : Option (List BucketRange)) : Prop :=
    n.Holds [] id nesting r ∧ ∀ level, level ≠ 0 → id ∈ c.idsAt level → nesting = level
  have hmarked : c.Marked F := fun x hx =>
    ⟨h.marked x hx, fun _ hlevel hid => (h.sound.level_iff hlevel hx).2 hid⟩
  have hfresh : ∀ id nesting, c.books.nextController ≤ id.number → F id nesting none := by
    intro id nesting hid
    refine ⟨Notice.holds_fresh (Nat.le_trans h.since hid), fun _ _ hmem => ?_⟩
    exact absurd (h.sound.lt_of_live id (live_of_idsAt id hmem)) (Nat.not_lt_of_le hid)
  have htell : ∀ level ranges, op = .restrict level ranges → level ≠ 0 →
      ∀ id ∈ c.idsAt level, ∀ nesting r, F id nesting r → F id nesting (some ranges) := by
    rintro level ranges rfl hlevel id hid nesting r ⟨hholds, hat⟩
    refine ⟨hholds.elsewhere ?_, hat⟩
    rw [hat level hlevel hid]
    rintro rfl
    exact hother ranges rfl
  obtain ⟨hdone, hbooks⟩ : (Context.perform runtime op c).2.Marked F ∧ _ :=
    hmarked.perform hop hfresh htell
  exact ⟨(keeps_perform (fun _ => hop) c h.sound).state, Nat.le_trans h.since hbooks,
    fun x hx => (hdone x hx).1⟩

theorem RunsOn.telling {n : Notice} (hrun : RunsOn n.level c c')
    (hreach : Reachable Operation.Regular c) (h : Telling n [] c) :
    Reachable Operation.Regular c' ∧ Telling n [] c' := by
  induction hrun with
  | refl => exact ⟨hreach, h⟩
  | step runtime op _ hop hother ih => exact ⟨.step runtime op ih.1 hop, ih.2.perform hop hother⟩

/-- Once ranges have been set for a level, no branch that was there starts a partition outside them
before they are set anew, whatever else is done. A branch that comes later has no ranges. -/
theorem ranges_hold (h : Reachable Operation.Regular c)
    (hok : restrict runtime level ranges c = (.ok (), c')) {c'' : Context}
    (hrun : RunsOn level c' c'') {x : Entry} (hx : x ∈ c''.entries) (hlevel : x.level = level) :
    (x.id ∈ c.entries.map Entry.id → ∀ m ∈ x.handles,
      ∃ bucket, m.1 = .hash bucket ∧ ∃ r ∈ ranges, r.contains bucket = true) ∧
    (x.id ∉ c.entries.map Entry.id → x.controller.scheme.ranges? = none) := by
  have hc' : Reachable Operation.Regular c' := by
    have hstep := Reachable.step runtime (.restrict level ranges) h trivial
    rwa [Context.perform, hok] at hstep
  let n : Notice := c.notice (h.sound False.elim) level ranges
  have hnotified : Telling n [] c' := Sound.notified _ hok
  obtain ⟨hreach, htelling⟩ := RunsOn.telling (n := n) hrun hc' hnotified
  have hsound : c''.Sound True := hreach.sound fun _ _ h => h
  have hheld := htelling.marked x hx
  refine ⟨fun hlive m hm => ?_, fun hfree => hheld.free hfree hlevel⟩
  have hranges : x.controller.scheme.ranges? = some ranges :=
    hheld.told ((hheld.level hlive).1 hlevel) List.not_mem_nil
  have hscheme : x.controller.scheme.Sound := by
    cases hroot : c''.root with
    | none => simp [entries, hroot] at hx
    | some root =>
        obtain ⟨_, hs⟩ := hsound.tree root hroot
        rw [entries_of_root hroot] at hx
        exact Node.scheme_of_mem_entries hs.manned hx
  have hkey : m.1 ∈ x.controller.children.keys :=
    List.mem_map_of_mem (((controllers_agree hreach).children x hx).mem_iff.2 hm)
  exact hscheme.inside hranges hkey

def picked (user : Int64) : Event :=
  { type := "Page", data := OrderedMap.ofPairs [("user", .int user), ("item", .int 7)] }

def rationed : Context := (restrict .collecting 2 [⟨0, 1⟩] basket).2

theorem rationed_ranges_hold :
    ∃ x ∈ (perform .collecting (.process (picked 1)) rationed).2.entries, x.level = 2 ∧
      x.handles.length = 1 ∧ ∀ m ∈ x.handles,
        ∃ bucket, m.1 = .hash bucket ∧
          ∃ r ∈ [(⟨0, 1⟩ : BucketRange)], r.contains bucket = true := by
  have hok : restrict .collecting 2 [⟨0, 1⟩] basket = (.ok (), rationed) := by
    have hresult : (restrict .collecting 2 [⟨0, 1⟩] basket).1 = .ok () := by decide +kernel
    exact Prod.ext hresult rfl
  have hrun : RunsOn 2 rationed (perform .collecting (.process (picked 1)) rationed).2 :=
    .step .collecting (.process (picked 1)) .refl trivial (by simp)
  obtain ⟨x, hx, hlevel, hlength, hlive⟩ :
      ∃ x ∈ (perform .collecting (.process (picked 1)) rationed).2.entries, x.level = 2 ∧
        x.handles.length = 1 ∧ x.id ∈ basket.entries.map Entry.id := by decide +kernel
  exact ⟨x, hx, hlevel, hlength, (ranges_hold reachable_basket hok hrun hx hlevel).1 hlive⟩

/-- A branch that comes after the call starts a bucket outside, and so may a caller. -/
theorem picked_outside :
    Reachable Operation.Regular basket ∧ basket.isActive = true ∧
      (∃ l, basket.declaration.levels[1]? = some (.hash l)) ∧
      restrict .collecting 2 [⟨0, 1⟩] basket = (.ok (), rationed) ∧
      (⟨0, 1⟩ : BucketRange).contains 3 = false ∧
      RunsOn 2 rationed (perform .collecting (.process (picked 2)) rationed).2 ∧
      (∃ x ∈ (perform .collecting (.process (picked 2)) rationed).2.entries, x.level = 2 ∧
        x.handles.map Prod.fst = [.hash 3]) ∧
      ∃ x ∈ (perform .collecting (.instantiate ⟨1⟩ { path := 3, key := .hash 3 })
          rationed).2.entries, x.level = 2 ∧ .hash 3 ∈ x.handles.map Prod.fst := by
  have hresult : (restrict .collecting 2 [⟨0, 1⟩] basket).1 = .ok () := by decide +kernel
  refine ⟨reachable_basket, by decide +kernel, ⟨_, rfl⟩, Prod.ext hresult rfl, by decide +kernel,
    .step .collecting (.process (picked 2)) .refl trivial (by simp), ?_, ?_⟩
  · decide +kernel
  · decide +kernel

end Context

end EventContexts
