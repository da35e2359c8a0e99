import EventContexts.Proofs.KeyedTrees

namespace EventContexts

open Act

variable {below : List Level} {path : Path} {post : Post} {strict : Prop} {Q : Leaf → Prop}
  {n m : Nat} {e : Event}

theorem Node.Sound.levels_eq {node : Node (Children below)}
    (h : node.Sound Q strict below path post) {ℓ : Leaf} (hℓ : ℓ ∈ node.leaves below path) :
    ℓ.path.map Step.level = path.map Step.level ++ post.level :: below := by
  induction below generalizing path post with
  | nil =>
      obtain ⟨rfl, -⟩ := h
      obtain ⟨x, -, rfl⟩ := List.mem_map.1 hℓ
      simp only [Node.step, List.map_append, List.map_cons, List.map_nil]
      rfl
  | cons l below ih =>
      obtain ⟨rfl, -, -, hfamily⟩ := h
      obtain ⟨x, hx, hℓ⟩ := List.mem_flatMap.1 hℓ
      have hlevels := ih (Child.sound_branch.1 (hfamily.each x hx)) hℓ
      simp only [List.map_append, List.map_cons, List.map_nil, List.append_assoc] at hlevels
      exact hlevels

@[simp] theorem Node.leaves_empty {controller : Controller} :
    Node.leaves below path ⟨controller, Children.empty below⟩ = [] := by
  cases below <;> rfl

theorem Node.roomy_create {l : Level} {id : ControllerId} {place : UInt32} {nesting : Nat}
    (h : l.Keyed) :
    Node.Roomy 0 below ⟨Controller.create l id place nesting, Children.empty below⟩ := by
  obtain ⟨kl, rfl⟩ := h
  cases below with
  | nil => trivial
  | cons l below =>
      refine ⟨⟨{ level := kl }, rfl, Nat.le_refl _, fun k hk => absurd hk List.not_mem_nil⟩, ?_⟩
      exact fun x hx => absurd hx List.not_mem_nil

namespace Level

variable {levels : List Level} {es : List Event} {keys : List Key}

def keyPaths (levels : List Level) (es : List Event) : List (List Key) :=
  (es.filterMap (keyPath? levels)).eraseDups

theorem mem_keyPaths : keys ∈ keyPaths levels es ↔ ∃ e ∈ es, keyPath? levels e = some keys := by
  rw [keyPaths, List.mem_eraseDups, List.mem_filterMap]

theorem keyPaths_concat_same (h : ∀ keys ∈ keyPath? levels e, keys ∈ keyPaths levels es) :
    keyPaths levels (es ++ [e]) = keyPaths levels es := by
  rw [keyPaths, List.filterMap_append, List.eraseDups_append]
  have hnone : (([e].filterMap (keyPath? levels)).removeAll (es.filterMap (keyPath? levels))) =
      [] := by
    refine List.filter_eq_nil_iff.2 fun keys hkeys => ?_
    obtain ⟨e', he', hkey⟩ := List.mem_filterMap.1 hkeys
    obtain rfl := List.mem_singleton.1 he'
    have hold := h keys hkey
    rw [keyPaths, List.mem_eraseDups] at hold
    simpa using hold
  rw [hnone]
  exact List.append_nil _

theorem keyPaths_concat_new (h : keyPath? levels e = some keys) (hnew : keys ∉ keyPaths levels es) :
    keyPaths levels (es ++ [e]) = keyPaths levels es ++ [keys] := by
  rw [keyPaths, List.filterMap_append, List.eraseDups_append]
  rw [keyPaths, List.mem_eraseDups] at hnew
  have hone : ([e].filterMap (keyPath? levels)).removeAll (es.filterMap (keyPath? levels)) =
      [keys] := by
    have hfilter : [e].filterMap (keyPath? levels) = [keys] := by simp [h]
    rw [hfilter]
    simpa [List.removeAll] using hnew
  rw [hone]
  rfl

def numbered (ways : List (List Key)) : List (UInt32 × List Key) :=
  ways.zipIdx.map fun (keys, i) => (UInt32.ofNat i, keys)

theorem numbered_concat (ways : List (List Key)) (keys : List Key) :
    numbered (ways ++ [keys]) = numbered ways ++ [(UInt32.ofNat ways.length, keys)] := by
  simp [numbered, List.zipIdx_append]

theorem map_snd_numbered (ways : List (List Key)) : (numbered ways).map Prod.snd = ways := by
  simp [numbered, List.map_map, Function.comp_def, List.zipIdx_map_fst]

theorem length_keyPaths_le : (keyPaths levels es).length ≤ es.length := by
  induction es using List.reverseRecOn with
  | nil => exact Nat.le_refl 0
  | append_singleton es e ih =>
      rw [List.length_append, List.length_singleton]
      by_cases h : ∀ keys ∈ keyPath? levels e, keys ∈ keyPaths levels es
      · rw [keyPaths_concat_same h]
        exact Nat.le_succ_of_le ih
      · push Not at h
        obtain ⟨keys, hkeys, hnew⟩ := h
        rw [keyPaths_concat_new hkeys hnew, List.length_append]
        exact Nat.succ_le_succ ih

end Level

theorem Regrouped.numbered {levels : List Level} {es : List Event} {before after : List Spot}
    (h : Regrouped (Level.keyPath? levels e) (Level.keyPaths levels es).length before m after)
    (hbefore : (before.map fun t => (t.partition, t.keys)).Perm
      (Level.numbered (Level.keyPaths levels es))) :
    m = (Level.keyPaths levels (es ++ [e])).length ∧
      (after.map fun t => (t.partition, t.keys)).Perm
        (Level.numbered (Level.keyPaths levels (es ++ [e]))) := by
  have hways : (before.map Spot.keys).Perm (Level.keyPaths levels es) := by
    have hkeys := hbefore.map Prod.snd
    rwa [List.map_map, Level.map_snd_numbered] at hkeys
  cases h with
  | same hafter hold =>
      have hways' : Level.keyPaths levels (es ++ [e]) = Level.keyPaths levels es :=
        Level.keyPaths_concat_same fun keys hkeys => hways.mem_iff.1 (hold keys hkeys)
      rw [hways']
      exact ⟨rfl, (hafter.map _).trans hbefore⟩
  | new hkeys hnew hafter =>
      have hways' := Level.keyPaths_concat_new hkeys fun hmem => hnew (hways.mem_iff.2 hmem)
      rw [hways', Level.numbered_concat, List.length_append]
      refine ⟨rfl, (hafter.map _).trans ?_⟩
      exact (hbefore.cons _).trans (List.perm_append_singleton _ _).symm

theorem Regrouped.new_keys {keys? : Option (List Key)} {m' : Nat} {before after : List Spot}
    (h : Regrouped keys? m before m' after) {t : Spot} (ht : t ∈ after) (hnew : t ∉ before) :
    t.keys ∉ before.map Spot.keys := by
  cases h with
  | same hafter _ => exact absurd (hafter.mem_iff.1 ht) hnew
  | new hkeys hnone hafter =>
      rcases List.mem_cons.1 (hafter.mem_iff.1 ht) with rfl | hold
      · exact hnone
      · exact absurd hold hnew

namespace Context

variable {c : Context} {runtime : Runtime} {s : Statement} {es : List Event} {d : Declaration}

theorem Sound.levels_eq (h : c.Sound strict) {ℓ : Leaf} (hℓ : ℓ ∈ c.leaves) :
    ℓ.path.map Step.level = c.declaration.levels := by
  cases hroot : c.root with
  | none => simp [Context.leaves, hroot] at hℓ
  | some root =>
      obtain ⟨id, hs⟩ := h.tree root hroot
      rw [leaves_of_root hroot] at hℓ
      exact Node.Sound.levels_eq hs.manned hℓ

theorem Sound.routes_iff (h : c.Sound strict) (hkeyed : ∀ l ∈ c.declaration.levels, l.Keyed)
    {ℓ : Leaf} (hℓ : ℓ ∈ c.leaves) :
    ℓ.path.Routes e ↔ Level.keyPath? c.declaration.levels e = some ℓ.path.keys := by
  rw [← h.levels_eq hℓ]
  refine Level.routes_iff_keyPath? fun step hstep => hkeyed _ ?_
  rw [← h.levels_eq hℓ]
  exact List.mem_map_of_mem hstep

theorem Sound.due_eq (h : c.Sound strict) (hkeyed : ∀ l ∈ c.declaration.levels, l.Keyed)
    {ℓ : Leaf} (hℓ : ℓ ∈ c.leaves) :
    ℓ.due e s = [e].filter fun e =>
      Level.keyPath? c.declaration.levels e = some ℓ.path.keys ∧ s.matches e := by
  rw [Leaf.due, List.filter_singleton, Bool.cond_decide]
  simp only [h.routes_iff hkeyed hℓ, and_comm]

theorem Sound.statement (h : c.Sound strict) (hs : c.statements = [s]) {ℓ : Leaf}
    (hℓ : ℓ ∈ c.leaves) {a : Agent} (ha : a ∈ ℓ.running.agents) : a.statement = s := by
  have hstatements := (h.leaves ℓ hℓ).statements.trans hs
  exact List.mem_singleton.1 (hstatements ▸ List.mem_map_of_mem ha)

theorem process_settles (h : c.Sound True) (hwilling : runtime.Willing)
    (hlimit : c.options.limit = none) (hkeyed : ∀ l ∈ c.declaration.levels, l.Keyed)
    {root : Node (Children c.declaration.inner)} (hroot : c.root = some root)
    (hroomy : root.Roomy n c.declaration.inner) (hn : n + 1 < UInt32.size)
    (hb : c.books.ids.Pristine m) (hm : m < UInt32.size) :
    ∃ root' books, process runtime e c = (.ok (), { c with root := some root', books }) ∧
      Node.Settles e c.declaration.levels n m root.children.spots (root', books) := by
  obtain ⟨id, hs⟩ := h.tree root hroot
  have hlevels : ∀ l ∈ (c.rootPost id).level :: c.declaration.inner, l.Keyed := hkeyed
  have hoffer : Ends (fun _ => Node.Settles e ((c.rootPost id).level :: c.declaration.inner) n m
      root.children.spots) (fun _ _ => False)
      ((c.setting runtime).offer e c.declaration.inner [] (root, c.books)) :=
    Setting.offer_settles hwilling hlimit c.declaration.inner hlevels hs hroomy hn hb hm
  obtain ⟨_, ⟨root', books⟩, hx, hsettles⟩ := hoffer.ok
  refine ⟨root', books, ?_, hsettles⟩
  simp only [process, onRoot, hroot, hx, Option.map_some, Option.getD_some]

theorem map_spot_leaves {root : Node (Children c.declaration.inner)} (hroot : c.root = some root) :
    c.leaves.map Leaf.spot = root.children.spots := by
  rw [leaves_of_root hroot, Node.map_spot_leaves]
  exact List.map_id _

structure Grouped (d : Declaration) (s : Statement) (es : List Event) (c : Context) : Prop where
  sound : c.Sound True
  declaration : c.declaration = d
  limit : c.options.limit = none
  statements : c.statements = [s]
  live : ∃ root, c.root = some root ∧ root.Roomy es.length c.declaration.inner
  ids : c.books.ids.Pristine (Level.keyPaths d.levels es).length
  spots : ((c.leaves.map Leaf.spot).map fun t => (t.partition, t.keys)).Perm
    (Level.numbered (Level.keyPaths d.levels es))
  rows : ∀ ℓ ∈ c.leaves, ∀ a ∈ ℓ.running.agents,
    a.rows = es.filter fun e => Level.keyPath? d.levels e = some ℓ.path.keys ∧ s.matches e

namespace Grouped

theorem keys (h : Grouped d s es c) :
    ((c.leaves.map Leaf.spot).map Spot.keys).Perm (Level.keyPaths d.levels es) := by
  have hkeys := h.spots.map Prod.snd
  rwa [List.map_map, Level.map_snd_numbered] at hkeys

theorem process (h : Grouped d s es c) (hkeyed : ∀ l ∈ d.levels, l.Keyed)
    (hwilling : runtime.Willing) (hes : es.length + 1 < UInt32.size) (e : Event) :
    ∃ c', process runtime e c = (.ok (), c') ∧ Grouped d s (es ++ [e]) c' := by
  obtain rfl := h.declaration
  obtain ⟨root, hroot, hroomy⟩ := h.live
  have hm : (Level.keyPaths c.declaration.levels es).length < UInt32.size :=
    Nat.lt_of_le_of_lt Level.length_keyPaths_le (Nat.lt_of_succ_lt hes)
  obtain ⟨root', books, hprocess, hroomy', m', hids, hspots⟩ :=
    process_settles (e := e) h.sound hwilling h.limit hkeyed hroot hroomy hes h.ids hm
  let c' : Context := { c with root := some root', books }
  have hroot' : c'.root = some root' := rfl
  have hsound : c'.Sound True := by
    have hkeeps : (Context.process runtime e c).2.Sound True := (keeps_process c h.sound).state
    rwa [hprocess] at hkeeps
  rw [← map_spot_leaves hroot, ← map_spot_leaves hroot'] at hspots
  obtain ⟨rfl, hnumbered⟩ := hspots.numbered h.spots
  refine ⟨c', hprocess, hsound, rfl, h.limit, h.statements, ⟨root', rfl, ?_⟩, hids, hnumbered, ?_⟩
  · rw [List.length_append]
    exact hroomy'
  · intro ℓ hℓ a ha
    rw [List.filter_append, ← hsound.due_eq hkeyed hℓ]
    rcases (process_done h.sound hprocess ℓ hℓ).served.origin with ⟨ℓ₀, hℓ₀, rfl⟩ | ⟨hsince, hrows⟩
    · obtain ⟨a₀, ha₀, rfl⟩ := List.mem_map.1 ha
      obtain rfl : a₀.statement = s := h.sound.statement h.statements hℓ₀ ha₀
      rw [Agent.rows_gaining, h.rows ℓ₀ hℓ₀ a₀ ha₀]
      rfl
    · -- a generation given since: the way of keys is new, and so no earlier event has it
      have hnew : ℓ.spot ∉ c.leaves.map Leaf.spot := by
        intro hmem
        obtain ⟨ℓ₀, hℓ₀, heq⟩ := List.mem_map.1 hmem
        have hgeneration : ℓ₀.running.generation = ℓ.running.generation :=
          congrArg Spot.generation heq
        have hlt := h.sound.generations.2 ℓ₀ hℓ₀
        omega
      have hkeys := hspots.new_keys (List.mem_map_of_mem hℓ) hnew
      have hnone : (es.filter fun e => Level.keyPath? c.declaration.levels e =
          some ℓ.path.keys ∧ s.matches e) = [] := by
        refine List.filter_eq_nil_iff.2 fun e' he' hkept => hkeys ?_
        exact h.keys.mem_iff.2 (Level.mem_keyPaths.2 ⟨e', he', (of_decide_eq_true hkept).1⟩)
      rw [hnone, hrows a ha, hsound.statement h.statements hℓ ha]
      rfl

theorem awaken_keyed (hkeyed : c.declaration.outer.Keyed) (hrecovery : c.recovery = none) :
    awaken runtime c = (.ok (), { c with
      root := some
        { controller := Controller.create c.declaration.outer ⟨c.books.nextController⟩ 0 1
          children := Children.empty _ }
      recovery := none
      books := { c.books with nextController := c.books.nextController + 1 } }) := by
  obtain ⟨kl, hlevel⟩ := hkeyed
  rw [awaken, hrecovery, hlevel]
  rfl

theorem attach {options : Options} {metrics : Option Metrics} {c₀ : Context}
    (hkeyed : ∀ l ∈ d.levels, l.Keyed) (hlimit : options.limit = none)
    (h : attach runtime s (Context.new d options metrics) = (.ok (), c₀)) :
    Grouped d s [] c₀ := by
  have hsound : c₀.Sound True := by
    have hnew : (Context.new d options metrics).Sound True := sound_new
    have hkeeps : (Context.attach runtime s (Context.new d options metrics)).2.Sound True :=
      (keeps_attach _ hnew).state
    rwa [h] at hkeeps
  let attached : Context := { Context.new d options metrics with statements := [s] }
  have hawaken : awaken runtime attached = (.ok (), c₀) := ((attach_ok_iff rfl).1 h).2.2
  rw [awaken_keyed (hkeyed _ (List.mem_cons_self ..)) rfl] at hawaken
  obtain ⟨-, rfl⟩ := Prod.mk.inj hawaken
  refine ⟨hsound, rfl, hlimit, rfl, ⟨_, rfl, ?_⟩, PartitionIds.pristine_new, ?_, ?_⟩
  · exact Node.roomy_create (hkeyed _ (List.mem_cons_self ..))
  · simp only [leaves, Node.leaves_empty]
    exact List.Perm.refl _
  · simp only [leaves, Node.leaves_empty]
    exact fun ℓ hℓ => absurd hℓ List.not_mem_nil

theorem forEach (h : Grouped d s es c) (hkeyed : ∀ l ∈ d.levels, l.Keyed)
    (hwilling : runtime.Willing) {more : List Event} (hmore : (es ++ more).length < UInt32.size) :
    ∃ c', Act.forEach (Context.process runtime) more c = (.ok (), c') ∧
      Grouped d s (es ++ more) c' := by
  induction more generalizing es c with
  | nil => exact ⟨c, rfl, by rwa [List.append_nil]⟩
  | cons e more ih =>
      have hlength : ((es ++ [e]) ++ more).length < UInt32.size := by
        rwa [List.append_assoc]
      have hes : es.length + 1 < UInt32.size := by
        simp only [List.length_append, List.length_cons, List.length_nil] at hlength
        omega
      obtain ⟨c₁, hprocess, h₁⟩ := h.process hkeyed hwilling hes e
      obtain ⟨c', hrest, h'⟩ := ih h₁ hlength
      refine ⟨c', ?_, by rwa [List.append_assoc] at h'⟩
      rw [Act.forEach, bind_apply, hprocess]
      exact hrest

end Grouped

/-- Keyed levels group events: from the first statement on, every event is taken, and afterwards
there is one partition per way of keys that came up, numbered by first appearance, in which the
statement has put out the events of that way that it asks for. -/
theorem keyed_levels_group {options : Options} {metrics : Option Metrics} {c₀ : Context}
    (hkeyed : ∀ l ∈ d.levels, l.Keyed) (hlimit : options.limit = none)
    (hwilling : runtime.Willing)
    (hattach : attach runtime s (Context.new d options metrics) = (.ok (), c₀))
    (hes : es.length < UInt32.size) :
    ∃ c, forEach (process runtime) es c₀ = (.ok (), c) ∧
      (c.leaves.map fun ℓ => (ℓ.partition, ℓ.path.keys)).Perm
        (Level.numbered (Level.keyPaths d.levels es)) ∧
      ∀ ℓ ∈ c.leaves, ∃ a, ℓ.running.agents = [a] ∧ a.statement = s ∧
        a.rows = es.filter fun e =>
          Level.keyPath? d.levels e = some ℓ.path.keys ∧ s.matches e := by
  obtain ⟨c, hrun, h⟩ := (Grouped.attach hkeyed hlimit hattach).forEach hkeyed hwilling hes
  refine ⟨c, hrun, ?_, fun ℓ hℓ => ?_⟩
  · have hspots := h.spots
    rwa [List.map_map] at hspots
  · have hagents := (h.sound.leaves ℓ hℓ).statements.trans h.statements
    obtain ⟨a, ha, hstatement⟩ := List.map_eq_singleton_iff.1 hagents
    exact ⟨a, ha, hstatement, h.rows ℓ hℓ a (ha ▸ List.mem_singleton_self a)⟩

def shops : Declaration :=
  { name := "shops"
    outer := .keyed { name := "user", items := [⟨"Page", ["user"]⟩] }
    inner := [.keyed { name := "shop", items := [⟨"Page", ["shop"]⟩] }]
    sound := by decide
    distinct := by decide }

theorem keyed_levels_group_shops :
    ∃ c₀, attach .collecting seen (Context.new shops) = (.ok (), c₀) ∧
      ∃ c, forEach (process .collecting) [page, page] c₀ = (.ok (), c) ∧
        c.leaves.map (fun ℓ => (ℓ.partition, ℓ.path.keys)) =
          [(0, [.keyed [.int 1], .keyed [.null]])] ∧
        ∀ ℓ ∈ c.leaves, ∃ a, ℓ.running.agents = [a] ∧ a.statement = seen ∧
          a.rows = [page, page].filter fun e =>
            Level.keyPath? shops.levels e = some ℓ.path.keys ∧ seen.matches e := by
  have hisOk : (attach .collecting seen (Context.new shops)).1.isOk = true := by decide +kernel
  have hkeyed : ∀ l ∈ shops.levels, l.Keyed := by simp [shops, Declaration.levels, Level.Keyed]
  rcases hattach : attach .collecting seen (Context.new shops) with ⟨_ | _, c₀⟩
  · rw [hattach] at hisOk
    cases hisOk
  · have hshort : [page, page].length < UInt32.size := by decide
    obtain ⟨c, hrun, hways, hrows⟩ := keyed_levels_group hkeyed rfl Runtime.willing_collecting
      hattach hshort
    have hnumbered : Level.numbered (Level.keyPaths shops.levels [page, page]) =
        [(0, [.keyed [.int 1], .keyed [.null]])] := by decide +kernel
    rw [hnumbered, List.perm_singleton] at hways
    exact ⟨c₀, rfl, c, hrun, hways, hrows⟩

end Context

end EventContexts
