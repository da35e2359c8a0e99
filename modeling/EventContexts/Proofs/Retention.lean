import EventContexts.Proofs.Recovery

namespace EventContexts

open Act

variable {below : List Level} {l : Level} {now : Int64} {xs : List Assignment} {r : Request}
  {path : Path} {post : Post} {Q : Leaf → Prop}

namespace Assignment

def Kept (now : Int64) : List Level → List Assignment → Prop
  | [], _ => True
  | l :: below, xs => l.Kept now xs ∧ ∀ x ∈ xs, Kept now below x.children

/-- Assignments that are heeded all the way down, and could be those of a live tree. -/
def Heeded (now : Int64) : List Level → List Assignment → Prop
  | [], _ => True
  | l :: below, xs => (l.Kept now xs ∧ l.Named xs) ∧ ∀ x ∈ xs, Heeded now below x.children

theorem heeded_nil : Heeded now below [] := by
  cases below with
  | nil => trivial
  | cons l below => exact ⟨⟨⟨by simp, by simp⟩, by simp, by simp⟩, by simp⟩

end Assignment

theorem Node.Sound.heeded {node : Node (Children below)} (hs : node.Sound Q True below path post)
    (hkept : Assignment.Kept now (post.level :: below) (node.assignments below)) :
    Assignment.Heeded now (post.level :: below) (node.assignments below) := by
  induction below generalizing path post with
  | nil => exact ⟨⟨hkept.1, named hs⟩, fun _ _ => trivial⟩
  | cons m below ih =>
      refine ⟨⟨hkept.1, named hs⟩, fun x hx => ?_⟩
      obtain ⟨y, hy, rfl⟩ := List.mem_map.1 (node.assignments_eq ▸ hx)
      have hbranch := Child.sound_branch.1 (hs.tended.holds.each y hy)
      exact ih hbranch (hkept.2 _ hx)

namespace Children

variable {children children' : Children below} {x : Assignment}

def Covers (children : Children below) (x : Assignment) : Prop :=
  ∀ way ∈ x.ways below, ∃ y ∈ children.table.entries, way ∈ (Child.assignment y).ways below

theorem Covers.mono (h : children.Covers x)
    (hsub : children.table.entries ⊆ children'.table.entries) : children'.Covers x :=
  fun way hway => (h way hway).imp fun _ hy => ⟨hsub hy.1, hy.2⟩

structure Welcomed (r : Request) (children : Children below) (s : Children below × Books) :
    Prop where
  kept : children.table.entries ⊆ s.1.table.entries
  covered : s.1.Covers r.assignment
  taken : below = [] → s.1.table.keys ⊆ s.2.ids.ids

end Children

namespace Setting

variable {env : Setting}

theorem claim_ok {b b₁ : Books} {assigned : Option UInt32} {p : UInt32}
    (h : env.claim assigned b = (.ok p, b₁)) :
    b₁.ids.ids.Perm (p :: b.ids.ids) ∧ ∀ q ∈ assigned, q = p := by
  cases assigned with
  | some q =>
      rw [claim] at h
      split at h
      · next hadd =>
          obtain ⟨hq, rfl⟩ := Prod.mk.inj h
          obtain rfl := Except.ok.inj hq
          exact ⟨PartitionIds.add_perm hadd, fun _ hq => (Option.some.inj hq).symm⟩
      · cases (Prod.mk.inj h).1
  | none =>
      rw [claim] at h
      split at h
      · next hcount =>
          obtain ⟨hp, rfl⟩ := Prod.mk.inj h
          obtain rfl := Except.ok.inj hp
          exact ⟨PartitionIds.allocate_perm hcount, by simp⟩
      · cases (Prod.mk.inj h).1

def Welcomes (env : Setting) (below : List Level) : Prop :=
  ∀ {path : Path} {owner : Controller} {children : Children below} {r : Request} {b : Books},
    r.trigger = none → Assignment.Heeded env.now below (r.recovered.getD []) →
    (below = [] → children.table.keys ⊆ b.ids.ids) →
    Ends (fun _ => Children.Welcomed r children) (fun _ _ => True)
      (env.startChild below path owner r (children, b))

theorem welcomes_nil (hwilling : env.runtime.Willing) (hlimit : env.limit = none) :
    env.Welcomes [] := by
  intro path owner children r b htrigger _ htaken
  let partitions : Table Running := children
  have hroom : ∀ n ∈ env.limit, b.ids.count < n := by simp [hlimit]
  rcases hclaim : env.claim r.assigned b with ⟨e | p, b₁⟩
  · have hstart : env.startPartition owner path r (partitions, b) =
        (.error e, (partitions, b₁)) := by simp [startPartition, hlimit, hclaim]
    have hfailed : Ends (fun _ => Children.Welcomed r children) (fun _ _ => True)
        (env.startPartition owner path r (partitions, b)) := by
      rw [hstart]
      trivial
    exact hfailed
  · obtain ⟨hids, hassigned⟩ := claim_ok hclaim
    -- the identifier was free, so the new partition takes no sibling's place
    have hnew : p ∉ partitions.keys := by
      have hnodup := hids.nodup_iff.1 b₁.ids.nodup_ids
      exact fun hmem => (List.nodup_cons.1 hnodup).1 (htaken rfl hmem)
    refine (startPartition_willing hwilling hroom hclaim).imp ?_ fun _ _ _ => trivial
    rintro handle ⟨partitions', b'⟩ ⟨⟨running, hkey, rfl, -⟩, hlaunched⟩
    have hentries := Table.insert_perm_of_new (a := running) hnew
    refine ⟨fun y hy => hentries.mem_iff.2 (List.mem_cons_of_mem _ hy), ?_, fun _ => ?_⟩
    · intro way hway
      obtain ⟨q, hq, rfl⟩ := List.mem_map.1 hway
      obtain rfl := hassigned q (Option.mem_toList.1 hq)
      refine ⟨(q, running), hentries.mem_iff.2 (List.mem_cons_self ..), ?_⟩
      let child : Child [] := running
      have hways : (Child.assignment (q, child)).ways [] = [(q, [r.key])] := hkey ▸ rfl
      rw [hways]
      exact List.mem_singleton_self _
    · intro k hk
      rw [hlaunched.ids]
      rcases Table.mem_keys_insert.1 hk with rfl | hk
      · exact hids.mem_iff.2 (List.mem_cons_self ..)
      · exact hids.mem_iff.2 (List.mem_cons_of_mem _ (htaken rfl hk))

theorem activate_welcomes (h : env.Welcomes below) (hl : l.flaw? = none)
    (hkind : l.kind ≠ .initiatedTerminated) {a : Activation} (htrigger : a.trigger = none)
    (hnow : a.now = env.now) (hheeded : Assignment.Heeded env.now (l :: below) a.recovered)
    (id : ControllerId) (place : UInt32) (nesting : Nat) (path : Path) (b : Books) :
    Ends (fun _ p => ∀ x ∈ a.recovered, p.2.1.Covers x) (fun _ _ => True)
      (Controller.activate (env.lifecycle below path (Controller.create l id place nesting)) a
        (Controller.create l id place nesting, (Children.empty below, b))) := by
  obtain ⟨⟨hkept, hnamed⟩, heach⟩ := hheeded
  let rs := l.replay env.now a.recovered
  -- while the requests go out one by one, all that came of those before stays
  let J (rest : List Request) (s : Children below × Books) : Prop :=
    ∃ done, rs = done ++ rest ∧ (∀ r ∈ done, s.1.Covers r.assignment) ∧
      (below = [] → s.1.table.keys ⊆ s.2.ids.ids)
  let life := env.lifecycle below path (Controller.create l id place nesting)
  have hstart : ∀ r rest, Triple (J (r :: rest)) (life.start r) (fun _ => J rest)
      fun _ _ => True := by
    rintro r rest ⟨children, b'⟩ ⟨done, hsplit, hdone, htaken⟩
    have hmem : r ∈ rs := by
      rw [hsplit]
      exact List.mem_append_right _ (List.mem_cons_self ..)
    have hchildren : Assignment.Heeded env.now below (r.recovered.getD []) := by
      change Assignment.Heeded env.now below r.assignment.children
      rcases hnamed.replay_assignment hkind hkept.bare hmem with hx | hbare
      · exact heach _ hx
      · rw [hbare]
        exact Assignment.heeded_nil
    refine (h (hnamed.replayed hmem).trigger hchildren htaken).imp ?_ fun _ _ he => he
    rintro handle s ⟨hsub, hcovers, htaken'⟩
    refine ⟨done ++ [r], by rw [hsplit]; simp, fun r' hr' => ?_, htaken'⟩
    rcases List.mem_append.1 hr' with hr' | hr'
    · exact (hdone r' hr').mono hsub
    · rw [List.mem_singleton.1 hr']
      exact hcovers
  have hready : J (l.replay a.now a.recovered) (Children.empty below, b) := by
    refine ⟨[], by rw [hnow]; rfl, by simp, fun _ => ?_⟩
    simp [Table.keys, Children.entries_empty]
  refine Controller.run_ends ((Scheme.activate_replays hl hkind hnamed htrigger hstart
    hready).imp ?_ fun _ _ he => he)
  rintro - ⟨scheme, s⟩ ⟨-, done, hsplit, hdone, -⟩ x hx
  obtain ⟨r, hr, rfl⟩ := List.mem_map.1 (hkept.mem_replay hnamed hkind hx)
  rw [List.append_nil] at hsplit
  exact hdone r (hsplit ▸ hr)

theorem welcomes_cons {m : Level} (h : env.Welcomes below) (hm : m.flaw? = none)
    (hkind : m.kind ≠ .initiatedTerminated) : env.Welcomes (m :: below) := by
  intro path owner children r b htrigger hheeded _
  let branches : Table (Branch (Children below)) := children
  simp only [startChild]
  split
  · trivial
  · next hc =>
      have hnew : r.path ∉ branches.keys := fun hmem => hc (Table.contains_iff.2 hmem)
      let b₁ := { b with nextController := b.nextController + 1 }
      have hgrown := activate_welcomes h hm hkind (a := env.activation r) htrigger rfl hheeded
        ⟨b.nextController⟩ r.path (owner.nesting + 1) (path ++ [⟨owner.level, r.key, r.properties⟩])
        b₁
      split
      · next controller grown b₂ heq =>
          have hcovers := hgrown.congr heq
          let branch : Branch (Children below) := ⟨r.key, r.properties, ⟨controller, grown⟩⟩
          have hentries := Table.insert_perm_of_new (a := branch) hnew
          refine ⟨fun y hy => hentries.mem_iff.2 (List.mem_cons_of_mem _ hy), ?_, by simp⟩
          intro way hway
          refine ⟨(r.path, branch), hentries.mem_iff.2 (List.mem_cons_self ..), ?_⟩
          obtain ⟨inner, hinner, rfl⟩ := List.mem_map.1 hway
          obtain ⟨x, hx, hinner⟩ := List.mem_flatMap.1 hinner
          obtain ⟨y, hy, hinner⟩ := hcovers x hx inner hinner
          have hchild : Child.assignment y ∈ Node.assignments below ⟨controller, grown⟩ := by
            rw [Node.assignments_eq]
            exact List.mem_map_of_mem hy
          exact List.mem_map.2 ⟨inner, List.mem_flatMap.2 ⟨_, hchild, hinner⟩, rfl⟩
      · trivial

theorem welcomes (hwilling : env.runtime.Willing) (hlimit : env.limit = none) (below : List Level)
    (hl : ∀ l ∈ below, l.flaw? = none) (hkind : ∀ l ∈ below, l.kind ≠ .initiatedTerminated) :
    env.Welcomes below := by
  induction below with
  | nil => exact welcomes_nil hwilling hlimit
  | cons m below ih =>
      obtain ⟨hm, hbelow⟩ := List.forall_mem_cons.1 hl
      obtain ⟨hkind, hkinds⟩ := List.forall_mem_cons.1 hkind
      exact welcomes_cons (ih hbelow hkinds) hm hkind

end Setting

namespace Context

variable {c c' : Context} {runtime : Runtime} {s : Statement} {strict : Prop}

theorem Sound.pathOf?_eq (h : c.Sound strict) {way : UInt32 × List Key}
    (hway : way ∈ c.assignments.flatMap (Assignment.ways c.declaration.inner)) :
    c.pathOf? way.1 = some way.2 := by
  have hnodup : ((c.assignments.flatMap (Assignment.ways c.declaration.inner)).map
      Prod.fst).Nodup := by
    rw [List.map_flatMap]
    exact h.allocated_ways.nodup_iff.1 c.books.ids.nodup_ids
  obtain ⟨found, hfound⟩ : ∃ found, (c.assignments.flatMap
      (Assignment.ways c.declaration.inner)).find? (fun w => w.1 = way.1) = some found :=
    Option.isSome_iff_exists.1 (List.find?_isSome.2 ⟨way, hway, decide_eq_true rfl⟩)
  have hsame : found.1 = way.1 := by simpa using List.find?_some hfound
  rw [pathOf?_eq_ways, hfound, Option.map_some,
    List.inj_on_of_nodup_map hnodup (List.mem_of_find?_eq_some hfound) hway hsame]

theorem awaken_covers (hwilling : runtime.Willing) (hlimit : c.options.limit = none)
    (hkinds : ∀ l ∈ c.declaration.levels, l.kind ≠ .initiatedTerminated) {xs : List Assignment}
    (hrecovery : c.recovery = some xs)
    (hheeded : Assignment.Heeded c.now c.declaration.levels xs)
    (hawaken : awaken runtime c = (.ok (), c')) :
    ∃ root books, c' = { c with root := some root, recovery := none, books } ∧
      ∀ x ∈ xs, root.children.Covers x := by
  let env := c.setting runtime
  obtain ⟨hl, hinner⟩ := List.forall_mem_cons.1 c.declaration.sound
  obtain ⟨hkind, hkinds⟩ := List.forall_mem_cons.1 hkinds
  obtain rfl : xs = c.activation.recovered := by rw [activation, hrecovery, Option.getD_some]
  have hgrown := Setting.activate_welcomes
    (env.welcomes hwilling hlimit c.declaration.inner hinner hkinds) hl hkind (a := c.activation)
    rfl rfl hheeded ⟨c.books.nextController⟩ 0 1 [] c.bare.2
  have hdrive : Ends (fun _ p => ∀ x ∈ c.activation.recovered, p.1.children.Covers x)
      (fun _ _ => True) (env.drive c.declaration.inner []
        (fun life => Controller.activate life c.activation) c.bare) :=
    Setting.drive_ends hgrown
  exact (ends_awaken hdrive).congr hawaken

/-- Whatever children that start by themselves were missing: a context that accepts a statement at
the same time of day has recreated every partition in its place. -/
theorem kept_levels_return (h : Reachable Operation.Regular c)
    (hkinds : ∀ l ∈ c.declaration.levels, l.kind ≠ .initiatedTerminated)
    (hlimit : c.options.limit = none)
    (hkept : Assignment.Kept c.now c.declaration.levels c.assignments)
    (metrics : Option Metrics) (hwilling : runtime.Willing)
    (hattach : attach runtime s (advance runtime c.now
      (Context.new c.declaration c.options metrics (some c.assignments))).2 = (.ok (), c')) :
    ∀ ℓ ∈ c.leaves, c'.pathOf? ℓ.partition = some ℓ.path.keys := by
  intro ℓ hℓ
  have hsound : c.Sound True := h.sound fun _ _ hop => hop
  have hsound' : c'.Sound True := sound_of_attach_new hattach
  cases hroot : c.root with
  | none =>
      rw [leaves, hroot] at hℓ
      cases hℓ
  | some root =>
      obtain ⟨id, hs⟩ := hsound.tree root hroot
      have hassignments : c.assignments = root.assignments c.declaration.inner := by
        rw [assignments, hroot]
      have hheeded : Assignment.Heeded c.now c.declaration.levels c.assignments := by
        rw [hassignments] at hkept ⊢
        exact Node.Sound.heeded hs.manned hkept
      let fresh : Context :=
        { Context.new c.declaration c.options metrics (some c.assignments) with
          now := c.now, statements := [s] }
      have hawaken : awaken runtime fresh = (.ok (), c') := ((attach_ok_iff rfl).1 hattach).2.2
      obtain ⟨root', books, rfl, hcovers⟩ :=
        awaken_covers (c := fresh) hwilling hlimit hkinds rfl hheeded hawaken
      have hway : (ℓ.partition, ℓ.path.keys) ∈
          c.assignments.flatMap (Assignment.ways c.declaration.inner) := by
        rw [ways_assignments]
        exact List.mem_map_of_mem (f := fun ℓ => (ℓ.partition, ℓ.path.keys)) hℓ
      obtain ⟨x, hx, hway⟩ := List.mem_flatMap.1 hway
      obtain ⟨y, hy, hway⟩ := hcovers x hx _ hway
      have hchild : Child.assignment y ∈ root'.assignments fresh.declaration.inner := by
        rw [root'.assignments_eq]
        exact List.mem_map_of_mem hy
      exact hsound'.pathOf?_eq (List.mem_flatMap.2 ⟨_, hchild, hway⟩)

def desks : Declaration :=
  { name := "desks"
    outer := .hash { name := "desk", eventType := "Page", property := "user", granularity := 4 }
    inner :=
      [.category { name := "team", eventType := "Page", items := [⟨"red", []⟩, ⟨"blue", []⟩] }]
    sound := by decide
    distinct := by decide }

-- The red team is missing at the first desk, and takes an identifier that is to come back later.
example :
    (attach .collecting seen (Context.new desks {} none (some
      [{ key := .hash 1, children := [{ key := .category "blue", partition := some 3 }] },
        { key := .hash 3
          children :=
            [{ key := .category "red", partition := some 0 },
              { key := .category "blue", partition := some 1 }] }]))).1 =
      .error (.partitionInUse 0) := by
  decide +kernel

end Context

end EventContexts
