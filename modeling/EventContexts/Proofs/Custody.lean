import EventContexts.Proofs.Conduct
import EventContexts.Proofs.Run
/-!
Controllers that remember, ask for and wake up to what their manners allow do so all over a tree,
and what then outlasts each single step at a node outlasts every operation on a live context.
-/

namespace EventContexts

open Act

structure Manners where
  knows : Scheme → Prop
  asks : Level → Request → Prop
  hands : Level → Activation → Prop

namespace Manners

variable {σ α : Type} {M : Manners} {life : Lifecycle σ} {I : σ → Prop}

abbrev Minding (M : Manners) (l : Level) (I : σ → Prop) : Scheme × σ → Prop :=
  Both (fun s => s.level = l ∧ M.knows s) I

abbrev Fresh (l : Level) (I : σ → Prop) : Scheme × σ → Prop :=
  Both (fun s => s = Scheme.ofLevel l) I

/-- Controllers keep to the manners, whatever their lifecycle keeps. They wake up once, as they come
into being. -/
structure Lawful (M : Manners) : Prop where
  forget : ∀ {s : Scheme} {h : Handle}, M.knows s → M.knows (s.forget h)
  activate : ∀ {σ : Type} {life : Lifecycle σ} {I : σ → Prop} {l : Level} {a : Activation},
    life.Serves (M.asks l) I → M.hands l a →
      Triple (Fresh l I) (Scheme.activate life a) (fun _ => M.Minding l I) fun _ => M.Minding l I
  route : ∀ {σ : Type} {life : Lifecycle σ} {I : σ → Prop} {l : Level} {e : Event},
    life.Serves (M.asks l) I → Keeps (M.Minding l I) (Scheme.route life e)
  tick : ∀ {σ : Type} {life : Lifecycle σ} {I : σ → Prop} {l : Level} {now : Int64},
    life.Serves (M.asks l) I → Keeps (M.Minding l I) (Scheme.tick life now)
  restrict : ∀ {σ : Type} {life : Lifecycle σ} {I : σ → Prop} {l : Level}
    {ranges : List BucketRange},
    life.Serves (M.asks l) I → Keeps (M.Minding l I) (Scheme.restrict life ranges)

end Manners

namespace Controller

variable {σ α : Type} {M : Manners} {life : Lifecycle σ} {I : σ → Prop} {post : Post}
  {a : Activation} {e : Event} {now : Int64} {ranges : List BucketRange}

abbrev Minding (M : Manners) (post : Post) (I : σ → Prop) : Controller × σ → Prop :=
  Both (fun c => c.post = post ∧ M.knows c.scheme) I

abbrev Fresh (post : Post) (I : σ → Prop) : Controller × σ → Prop :=
  Both (fun c => c.post = post ∧ c.scheme = Scheme.ofLevel post.level) I

theorem run_minds {x : Act (Scheme × σ) α} {P : Scheme × σ → Prop}
    (h : Triple P x (fun _ => M.Minding post.level I) fun _ => M.Minding post.level I) :
    Triple (fun p => p.1.post = post ∧ P (p.1.scheme, p.2)) (run x) (fun _ => Minding M post I)
      fun _ => Minding M post I := by
  refine (run_triple h (fun _ _ hp => hp.1.1) fun _ _ hp => hp.1.1).imp (fun _ hp => hp) ?_ ?_
  · exact fun _ _ hp => ⟨⟨hp.1, hp.2.1.2⟩, hp.2.2⟩
  · exact fun _ _ hp => ⟨⟨hp.1, hp.2.1.2⟩, hp.2.2⟩

theorem minds_run {x : Act (Scheme × σ) α} (h : Keeps (M.Minding post.level I) x) :
    Keeps (Minding M post I) (run x) :=
  (run_minds h).imp (fun _ hp => ⟨hp.1.1, ⟨congrArg Post.level hp.1.1, hp.1.2⟩, hp.2⟩)
    (fun _ _ hp => hp) fun _ _ hp => hp

variable (hM : M.Lawful) (hlife : life.Serves (M.asks post.level) I)

include hM hlife

theorem minds_activate (ha : M.hands post.level a) :
    Triple (Fresh post I) (activate life a) (fun _ => Minding M post I) fun _ => Minding M post I :=
  (run_minds (hM.activate hlife ha)).imp (fun _ hp => ⟨hp.1.1, hp.1.2, hp.2⟩) (fun _ _ hp => hp)
    fun _ _ hp => hp

theorem minds_route : Keeps (Minding M post I) (route life e) := minds_run (hM.route hlife)

theorem minds_tick : Keeps (Minding M post I) (tick life now) := minds_run (hM.tick hlife)

theorem minds_restrict : Keeps (Minding M post I) (restrict life ranges) :=
  minds_run (hM.restrict hlife)

end Controller

namespace Setting

variable {ρ : Type} {env : Setting} {M : Manners} {P : Level → Request → Prop}
  {J : ρ → (below : List Level) → Post → Children below × Books → Prop}

/-- `J` of the children of a node and of the books outlasts each step that starts, ends or visits
one child, if it is started with `P` and controllers keep to their manners. It may depend on where
the node's controller stands. Its index stands for all that hangs elsewhere: to look into a branch
is to leave the rest of the tree outside. -/
structure Custody (env : Setting) (M : Manners) (P : Level → Request → Prop)
    (J : ρ → (below : List Level) → Post → Children below × Books → Prop) : Prop where
  asks : ∀ {l : Level} {r : Request}, M.asks l r → P l r
  hands : ∀ {x : ρ} {post : Post} {m : Level} {below : List Level} {r : Request}
    {s : Children (m :: below) × Books}, P post.level r → J x (m :: below) post s →
      M.hands m (env.activation r)
  number : ∀ {x : ρ} {below : List Level} {post : Post} {children : Children below} {b : Books},
    J x below post (children, b) →
      J x below post (children, { b with nextController := b.nextController + 1 })
  partition : ∀ {x : ρ} {path : Path} {owner : Controller} {r : Request}, P owner.level r →
    Keeps (J x [] owner.post) (env.startPartition owner path r)
  sprout : ∀ {x : ρ} {post : Post} {m : Level} {below : List Level} {r : Request}
    {branches : Table (Branch (Children below))} {b : Books}, P post.level r →
      J x (m :: below) post (branches, b) → r.path ∉ branches.keys →
      ∃ y, J y below ⟨⟨b.nextController⟩, r.path, post.nesting + 1, m⟩
          (Children.empty below, { b with nextController := b.nextController + 1 }) ∧
        ∀ (node : Node (Children below)) (b' : Books),
          node.controller.post = ⟨⟨b.nextController⟩, r.path, post.nesting + 1, m⟩ →
          M.knows node.controller.scheme →
          J y below node.controller.post (node.children, b') →
            J x (m :: below) post (branches.insert r.path ⟨r.key, r.properties, node⟩, b') ∧
            J x (m :: below) post (branches, (env.closeAll none false below node b').2)
  stop : ∀ {x : ρ} {below : List Level} {post : Post} {id : ControllerId} {h : Handle}
    {termination : Option Props}, Keeps (J x below post) (env.endChild termination below id h)
  descend : ∀ {x : ρ} {post : Post} {m : Level} {below : List Level} {k : UInt32}
    {branch : Branch (Children below)} {branches : Table (Branch (Children below))} {b : Books},
      J x (m :: below) post (branches, b) → (k, branch) ∈ branches.entries →
      M.knows branch.node.controller.scheme ∧
      ∃ y, J y below branch.node.controller.post (branch.node.children, b) ∧
        ∀ (node : Node (Children below)) (b' : Books),
          node.controller.post = branch.node.controller.post →
          M.knows node.controller.scheme →
          J y below node.controller.post (node.children, b') →
            J x (m :: below) post (branches.insert k { branch with node }, b')
  offer : ∀ {x : ρ} {post : Post} {p : UInt32} {r : Running} {partitions : Table Running}
    {b : Books} {e : Event}, J x [] post (partitions, b) → (p, r) ∈ partitions.entries →
      J x [] post (partitions.insert p { r with agents := r.agents.map fun a => a.evaluate e },
        (offerAll e r.agents b).2)

structure Minded (M : Manners)
    (J : ρ → (below : List Level) → Post → Children below × Books → Prop) (x : ρ)
    (below : List Level) (post : Post) (s : Node (Children below) × Books) : Prop where
  stands : s.1.controller.post = post
  knows : M.knows s.1.controller.scheme
  children : J x below post (s.1.children, s.2)

namespace Custody

variable {x : ρ} {below : List Level} {m : Level} {post : Post} {path : Path} {α : Type}
  (hM : M.Lawful)

include hM

theorem serves (h : env.Custody M P J) (below : List Level) (path : Path) (owner : Controller)
    (x : ρ) : (env.lifecycle below path owner).Serves (P owner.level) (J x below owner.post) := by
  induction below generalizing path owner x with
  | nil => exact ⟨fun hr => h.partition hr, fun _ => h.stop⟩
  | cons m below ih =>
      refine ⟨fun {r} hr => ?_, fun _ => h.stop⟩
      rintro ⟨children, b⟩ hJ
      let branches : Table (Branch (Children below)) := children
      simp only [lifecycle, startChild]
      split
      · exact h.number hJ
      · next hc =>
          have hnew : r.path ∉ branches.keys := fun hmem => hc (Table.contains_iff.2 hmem)
          have hr : P owner.post.level r := hr
          obtain ⟨y, hempty, hdone⟩ := h.sprout hr hJ hnew
          let fresh := Controller.create m ⟨b.nextController⟩ r.path (owner.nesting + 1)
          let life := env.lifecycle below (path ++ [⟨owner.level, r.key, r.properties⟩]) fresh
          have hpost : fresh.post = ⟨⟨b.nextController⟩, r.path, owner.post.nesting + 1, m⟩ :=
            congrArg (Post.mk _ _ _) (Scheme.level_ofLevel m)
          have hlevel : fresh.post.level = m := Scheme.level_ofLevel m
          have hlife : life.Serves (M.asks fresh.post.level) (J y below fresh.post) :=
            (ih _ fresh y).mono fun _ => h.asks
          have hhands : M.hands fresh.post.level (env.activation r) := hlevel.symm ▸ h.hands hr hJ
          have hgrown := Controller.minds_activate hM hlife hhands (fresh, _)
            ⟨⟨rfl, congrArg Scheme.ofLevel hlevel.symm⟩, hpost ▸ hempty⟩
          split
          · next controller grown b' heq =>
              obtain ⟨⟨hstay, hknows⟩, hJ'⟩ := hgrown.congr heq
              exact (hdone ⟨controller, grown⟩ b' (hstay.trans hpost) hknows (hstay.symm ▸ hJ')).1
          · next e controller grown b' heq =>
              obtain ⟨⟨hstay, hknows⟩, hJ'⟩ := hgrown.congr heq
              exact (hdone ⟨controller, grown⟩ b' (hstay.trans hpost) hknows (hstay.symm ▸ hJ')).2

theorem keeps_drive (h : env.Custody M P J)
    {f : Lifecycle (Children below × Books) → Act (Controller × (Children below × Books)) α}
    (hf : ∀ life : Lifecycle (Children below × Books),
      life.Serves (M.asks post.level) (J x below post) →
      Keeps (Controller.Minding M post (J x below post)) (f life)) :
    Keeps (Minded M J x below post) (env.drive below path f) := by
  rintro ⟨node, b⟩ ⟨rfl, hknows, hJ⟩
  have hlife := (h.serves hM below path node.controller x).mono fun _ => h.asks
  refine drive_ends ((hf _ hlife (node.controller, (node.children, b)) ⟨⟨rfl, hknows⟩, hJ⟩).imp
    ?_ ?_) <;> exact fun _ _ hs => ⟨hs.1.1, hs.1.2, hs.2⟩

theorem activate_minded (h : env.Custody M P J) {node : Node (Children below)} {b : Books}
    {a : Activation} (hfresh : node.controller.scheme = Scheme.ofLevel node.controller.level)
    (ha : M.hands node.controller.level a)
    (hJ : J x below node.controller.post (node.children, b)) :
    Ends (fun _ => Minded M J x below node.controller.post)
      (fun _ => Minded M J x below node.controller.post)
      (env.drive below path (fun life => Controller.activate life a) (node, b)) := by
  have hlife := (h.serves hM below path node.controller x).mono fun _ => h.asks
  have hwoken := Controller.minds_activate hM hlife ha
    (node.controller, (node.children, b)) ⟨⟨rfl, hfresh⟩, hJ⟩
  refine drive_ends (hwoken.imp ?_ ?_) <;> exact fun _ _ hs => ⟨hs.1.1, hs.1.2, hs.2⟩

theorem keeps_route (h : env.Custody M P J) {e : Event} :
    Keeps (Minded M J x below post) (env.drive below path fun life => Controller.route life e) :=
  h.keeps_drive hM fun _ hlife => Controller.minds_route hM hlife

omit hM in
theorem keeps_offerPartition (h : env.Custody M P J) {e : Event} {handle : Handle} :
    Keeps (Minded M J x [] post) (offerPartition e handle) := by
  rintro ⟨node, b⟩ ⟨hpost, hknows, hJ⟩
  by_cases hlive : ∃ c ∈ node.children.table.entries, handle = c.2.handle node.controller.id c.1
  · obtain ⟨⟨p, r⟩, hmem, hh⟩ := hlive
    rw [offerPartition_live hmem hh]
    exact ⟨hpost, hknows, h.offer hJ hmem⟩
  · rw [offerPartition_stale hlive]
    exact ⟨hpost, hknows, hJ⟩

omit hM in
theorem descend_minded (h : env.Custody M P J) {node : Node (Children (m :: below))} {b : Books}
    {k : UInt32} {branch : Branch (Children below)} (hs : Minded M J x (m :: below) post (node, b))
    (hmem : (k, branch) ∈ (node.children : Table (Branch (Children below))).entries) :
    ∃ y post', Minded M J y below post' (branch.node, b) ∧ ∀ p, Minded M J y below post' p →
      Minded M J x (m :: below) post (node.withBranch k branch p.1, p.2) := by
  obtain ⟨hknows, y, hJ, hback⟩ := h.descend hs.children hmem
  refine ⟨y, branch.node.controller.post, ⟨rfl, hknows, hJ⟩, fun p hp => ⟨hs.stands, hs.knows, ?_⟩⟩
  exact hback p.1 p.2 hp.stands hp.knows (hp.stands.symm ▸ hp.children)

theorem keeps_offer (h : env.Custody M P J) {e : Event} (below : List Level) {x : ρ} {post : Post}
    {path : Path} : Keeps (Minded M J x below post) (env.offer e below path) := by
  induction below generalizing x post path with
  | nil => exact (h.keeps_route hM).bind fun _ => triple_forEach fun _ _ => h.keeps_offerPartition
  | cons m below ih =>
      refine (h.keeps_route hM).bind fun _ => triple_forEach fun handle _ => ?_
      rintro ⟨node, b⟩ hs
      by_cases hlive : ∃ c ∈ node.children.table.entries, handle = c.2.handle node.controller.id c.1
      · obtain ⟨⟨k, branch⟩, hmem, hh⟩ := hlive
        obtain ⟨y, post', hminded, hback⟩ := h.descend_minded hs hmem
        exact inBranch_ends hmem hh ((ih _ hminded).imp (fun _ => hback) fun _ => hback)
      · rw [inBranch_stale hlive]
        exact hs

theorem keeps_endAt (h : env.Custody M P J) {handle : Handle} {termination : Option Props} :
    Keeps (Minded M J x below post) (env.endAt handle termination below) := by
  rintro ⟨node, b⟩ ⟨rfl, hknows, hJ⟩
  rw [endAt]
  split
  · have hend : Ends (fun _ => J x below node.controller.post)
        (fun _ => J x below node.controller.post)
        (env.endChild termination below node.controller.id handle (node.children, b)) :=
      h.stop _ hJ
    exact ends_of_state ⟨congrArg (Post.mk _ _ _) Scheme.level_forget, hM.forget hknows, hend.state⟩
  · exact ⟨rfl, hknows, hJ⟩

theorem keeps_startAt (h : env.Custody M P J) {r : Request} (hr : ∀ l, P l r) :
    Keeps (Minded M J x below post) (env.startAt r below path) := by
  rintro ⟨node, b⟩ ⟨rfl, hknows, hJ⟩
  have hstart := (h.serves hM below path node.controller x).start (hr _) (node.children, b) hJ
  exact ends_of_state ⟨rfl, hknows, hstart.state⟩

omit hM in
theorem atController_ends (h : env.Custody M P J) {id : ControllerId}
    {f : (below : List Level) → Path → Act (Node (Children below) × Books) α}
    (hf : ∀ {x below path post}, Keeps (Minded M J x below post) (f below path))
    {node : Node (Children below)} {b : Books} (hs : Minded M J x below post (node, b))
    {o : Except Error α × (Node (Children below) × Books)}
    (ho : Node.atController id f below path (node, b) = some o) : Minded M J x below post o.2 := by
  induction below generalizing x post path with
  | nil =>
      rw [Node.atController] at ho
      split at ho
      · obtain rfl := Option.some.inj ho
        exact (hf _ hs).state
      · cases ho
  | cons m below ih =>
      rw [Node.atController] at ho
      split at ho
      · obtain rfl := Option.some.inj ho
        exact (hf _ hs).state
      · obtain ⟨⟨k, branch⟩, hmem, hvisit⟩ := List.exists_of_findSome?_eq_some ho
        obtain ⟨⟨r, n, b'⟩, hn, rfl⟩ := Option.map_eq_some_iff.1 hvisit
        have hcontains : (node.children : Table (Branch (Children below))).contains k = true :=
          Table.contains_iff.2 (List.mem_map_of_mem hmem)
        obtain ⟨y, post', hminded, hback⟩ := h.descend_minded hs hmem
        have hvisited := hback _ (ih hminded hn)
        simp only [Table.replace, hcontains]
        exact hvisited

end Custody

end Setting

namespace Context

variable {ρ : Type} {M : Manners} {P : Level → Request → Prop}
  {J : ρ → (below : List Level) → Post → Children below × Books → Prop} {x : ρ}
  {shape : Descriptor} {ss : List Statement} {c : Context} {runtime : Runtime}

structure Planted (M : Manners)
    (J : ρ → (below : List Level) → Post → Children below × Books → Prop) (x : ρ) (c : Context)
    (s : Node (Children c.declaration.inner) × Books) : Prop where
  level : s.1.controller.level = c.declaration.outer
  minded : Setting.Minded M J x c.declaration.inner s.1.controller.post s

structure Tended (M : Manners)
    (J : ρ → (below : List Level) → Post → Children below × Books → Prop) (x : ρ)
    (shape : Descriptor) (ss : List Statement) (c : Context) : Prop where
  descriptor : c.descriptor = shape
  statements : c.statements = ss
  idle : c.root = none → ∀ id, J x c.declaration.inner (c.rootPost id) (Children.empty _, c.books)
  tree : ∀ root ∈ c.root, c.Planted M J x (root, c.books)

theorem Planted.of_minded {s s' : Node (Children c.declaration.inner) × Books}
    (hs : c.Planted M J x s)
    (h : Setting.Minded M J x c.declaration.inner s.1.controller.post s') :
    c.Planted M J x s' :=
  ⟨(congrArg Post.level h.stands).trans hs.level, rfl, h.knows, h.stands.symm ▸ h.children⟩

theorem keeps_planted {α : Type} {f : Act (Node (Children c.declaration.inner) × Books) α}
    (h : ∀ post, Keeps (Setting.Minded M J x c.declaration.inner post) f) :
    Keeps (c.Planted M J x) f :=
  fun s hs => ends_of_state (hs.of_minded (h _ s hs.minded).state)

theorem Tended.onRoot {α : Type} {d : Except Error α × Context}
    {f : Node (Children c.declaration.inner) × Books →
      Option (Except Error α × (Node (Children c.declaration.inner) × Books))}
    (h : c.Tended M J x shape ss)
    (hf : ∀ s, c.Planted M J x s → ∀ o ∈ f s, c.Planted M J x o.2)
    (hd : d.2.Tended M J x shape ss) : ((c.onRoot f).getD d).2.Tended M J x shape ss := by
  rw [Context.onRoot]
  split
  · exact hd
  · next root hroot =>
      cases hs : f (root, c.books) with
      | none => exact hd
      | some o =>
          refine ⟨h.descriptor, h.statements, by simp, ?_⟩
          rintro _ ⟨⟩
          obtain ⟨hlevel, hminded⟩ := hf _ (h.tree root hroot) o hs
          exact ⟨hlevel, hminded⟩

variable (hM : M.Lawful) (hup : ∀ env : Setting, env.descriptor = shape → env.statements = ss →
  env.Custody M P J)

include hup

theorem Tended.atController {α : Type} {id : ControllerId} {d : Except Error α × Context}
    {f : (below : List Level) → Path → Act (Node (Children below) × Books) α}
    (h : c.Tended M J x shape ss) (runtime : Runtime)
    (hf : ∀ {x below path post}, Keeps (Setting.Minded M J x below post) (f below path))
    (hd : d.2.Tended M J x shape ss) :
    ((c.onRoot fun tree => Node.atController id f _ [] tree).getD d).2.Tended M J x shape ss :=
  h.onRoot (fun _ hs _ ho => hs.of_minded
    ((hup (c.setting runtime) h.descriptor h.statements).atController_ends hf hs.minded ho)) hd

include hM

theorem tended_process {e : Event} : Keeps (Tended M J x shape ss) (process runtime e) := by
  intro c h
  refine ends_of_state (h.onRoot ?_ h)
  rintro s hs _ ⟨⟩
  exact (keeps_planted (fun _ => (hup _ h.descriptor h.statements).keeps_offer hM _) s hs).state

theorem tended_driveEach {f : {σ : Type} → Lifecycle σ → Act (Controller × σ) Unit}
    (hf : ∀ {σ : Type} {life : Lifecycle σ} {I : σ → Prop} {post : Post},
      life.Serves (M.asks post.level) I → Keeps (Controller.Minding M post I) (f life))
    {ids : List ControllerId} : Keeps (Tended M J x shape ss) (driveEach runtime f ids) := by
  refine triple_forEach fun id _ => ?_
  intro c h
  exact ends_of_state (h.atController hup runtime
    ((hup (c.setting runtime) h.descriptor h.statements).keeps_drive hM fun _ hlife => hf hlife) h)

theorem tended_advance {now : Int64} : Keeps (Tended M J x shape ss) (advance runtime now) := by
  intro c h
  have hclock : ({ c with now } : Context).Tended M J x shape ss :=
    ⟨h.descriptor, h.statements, h.idle,
      fun root hroot => ⟨(h.tree root hroot).level, (h.tree root hroot).minded⟩⟩
  exact tended_driveEach hM hup (Controller.minds_tick hM) _ hclock

theorem tended_restrict {level : Nat} {ranges : List BucketRange} :
    Keeps (Tended M J x shape ss) (restrict runtime level ranges) := by
  intro c h
  rw [restrict]
  split
  · exact h
  · exact tended_driveEach hM hup (Controller.minds_restrict hM) _ h

theorem tended_terminate {h : Handle} {termination : Option Props} :
    Keeps (Tended M J x shape ss) (terminate runtime h termination) := by
  intro c hc
  exact ends_of_state (hc.atController hup runtime
    ((hup (c.setting runtime) hc.descriptor hc.statements).keeps_endAt hM) hc)

theorem tended_instantiate {originator : ControllerId} {r : Request} (hr : ∀ l, P l r) :
    Keeps (Tended M J x shape ss) (instantiate runtime originator r) := by
  intro c hc
  exact ends_of_state (hc.atController hup runtime
    ((hup (c.setting runtime) hc.descriptor hc.statements).keeps_startAt hM hr) hc)

theorem awaken_planted (h : c.Tended M J x shape ss) (hroot : c.root = none)
    (hhands : M.hands c.declaration.outer c.activation) :
    Ends (fun _ c' => ∃ root books,
        c' = { c with root := some root, recovery := none, books } ∧ c.Planted M J x (root, books))
      (fun _ c' => ∃ root books, c' = { c with root := some root, books } ∧
        c.Planted M J x (root, books))
      (awaken runtime c) := by
  have henv := hup (c.setting runtime) h.descriptor h.statements
  let fresh := c.bare.1.controller
  have hlevel : fresh.level = c.declaration.outer := Scheme.level_ofLevel _
  have hpost : fresh.post = c.rootPost ⟨c.books.nextController⟩ := congrArg (Post.mk _ _ _) hlevel
  have hbare : J x c.declaration.inner fresh.post (c.bare.1.children, c.bare.2) :=
    hpost.symm ▸ henv.number (h.idle hroot ⟨c.books.nextController⟩)
  have hwoken : Ends (fun _ => Setting.Minded M J x c.declaration.inner fresh.post)
      (fun _ => Setting.Minded M J x c.declaration.inner fresh.post)
      ((c.setting runtime).drive c.declaration.inner []
        (fun life => Controller.activate life c.activation) c.bare) :=
    henv.activate_minded hM (congrArg Scheme.ofLevel hlevel.symm) (hlevel.symm ▸ hhands) hbare
  have hplanted (s : Node (Children c.declaration.inner) × Books)
      (hs : Setting.Minded M J x c.declaration.inner fresh.post s) : c.Planted M J x s :=
    ⟨(congrArg Post.level hs.stands).trans hlevel, rfl, hs.knows, hs.stands.symm ▸ hs.children⟩
  exact ends_awaken (hwoken.imp (fun _ => hplanted) fun _ => hplanted)

theorem tended_perform {op : Operation} (hop : op.Inner) (hr : ∀ r l, op.Asks r → P l r) :
    Keeps (Tended M J x shape ss) (perform runtime op) := by
  cases op with
  | attach s => exact hop.elim
  | detach id => exact hop.elim
  | process e => exact tended_process hM hup
  | advance now => exact tended_advance hM hup
  | restrict level ranges => exact tended_restrict hM hup
  | terminate h termination => exact tended_terminate hM hup
  | instantiate originator r =>
      exact (tended_instantiate hM hup fun l => hr r l rfl).bind fun _ => keeps_pure

end Context

end EventContexts
