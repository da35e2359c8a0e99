import EventContexts.Proofs.Custody
/-!
What each single step at a node keeps, every operation on a live context keeps.
-/

namespace EventContexts

open Act

def Manners.suiting : Manners where
  knows _ := True
  asks := Request.Suits
  hands _ _ := True

theorem Manners.suiting_minding {σ α : Type} {I : σ → Prop} {l : Level} {x : Act (Scheme × σ) α}
    (h : Keeps (Scheme.Serving l I) x) : Keeps (suiting.Minding l I) x :=
  h.imp (fun _ hp => ⟨hp.1.1, hp.2⟩) (fun _ _ hp => ⟨⟨hp.1, trivial⟩, hp.2⟩)
    fun _ _ hp => ⟨⟨hp.1, trivial⟩, hp.2⟩

theorem Manners.suiting_lawful : suiting.Lawful where
  forget _ := trivial
  activate hlife _ := (suiting_minding (Scheme.serves_activate hlife)).imp
    (fun _ hp => ⟨⟨hp.1 ▸ Scheme.level_ofLevel _, trivial⟩, hp.2⟩) (fun _ _ hp => hp)
    fun _ _ hp => hp
  route hlife := suiting_minding (Scheme.serves_route hlife)
  tick hlife := suiting_minding (Scheme.serves_tick hlife)
  restrict hlife := suiting_minding (Scheme.serves_restrict hlife)

namespace Setting

variable {ρ : Type} {env : Setting} {P : Level → Request → Prop}
  {J : ρ → (below : List Level) → Post → Children below × Books → Prop}

/-- `J` of the children of a node and of the books outlasts each step that starts, ends or visits
one child, if it is started with `P`. It may depend on where the node's controller stands. Its
index stands for all that hangs elsewhere: to look into a branch is to leave the rest of the tree
outside. -/
structure Upkeep (env : Setting) (P : Level → Request → Prop)
    (J : ρ → (below : List Level) → Post → Children below × Books → Prop) : Prop where
  suits : ∀ {l : Level} {r : Request}, r.Suits l → P l r
  number : ∀ {x : ρ} {below : List Level} {post : Post} {children : Children below} {b : Books},
    J x below post (children, b) →
      J x below post (children, { b with nextController := b.nextController + 1 })
  partition : ∀ {x : ρ} {path : Path} {owner : Controller} {r : Request}, P owner.level r →
    Keeps (J x [] owner.post) (env.startPartition owner path r)
  sprout : ∀ {x : ρ} {post : Post} {m : Level} {below : List Level} {r : Request}
    {branches : Table (Branch (Children below))} {b : Books}, P post.level r →
      J x (m :: below) post (branches, b) → r.path ∉ branches.keys →
      ∃ y, J y below ⟨⟨b.nextController⟩, r.path, post.nesting + 1, m⟩
          (Children.empty below, { b with nextController := b.nextController + 1 }) ∧
        ∀ (node : Node (Children below)) (b' : Books),
          node.controller.post = ⟨⟨b.nextController⟩, r.path, post.nesting + 1, m⟩ →
          J y below node.controller.post (node.children, b') →
            J x (m :: below) post (branches.insert r.path ⟨r.key, r.properties, node⟩, b') ∧
            J x (m :: below) post (branches, (env.closeAll none false below node b').2)
  stop : ∀ {x : ρ} {below : List Level} {post : Post} {id : ControllerId} {h : Handle}
    {termination : Option Props}, Keeps (J x below post) (env.endChild termination below id h)
  descend : ∀ {x : ρ} {post : Post} {m : Level} {below : List Level} {k : UInt32}
    {branch : Branch (Children below)} {branches : Table (Branch (Children below))} {b : Books},
      J x (m :: below) post (branches, b) → (k, branch) ∈ branches.entries →
      ∃ y, J y below branch.node.controller.post (branch.node.children, b) ∧
        ∀ (node : Node (Children below)) (b' : Books),
          node.controller.post = branch.node.controller.post →
          J y below node.controller.post (node.children, b') →
            J x (m :: below) post (branches.insert k { branch with node }, b')
  offer : ∀ {x : ρ} {post : Post} {p : UInt32} {r : Running} {partitions : Table Running}
    {b : Books} {e : Event}, J x [] post (partitions, b) → (p, r) ∈ partitions.entries →
      J x [] post (partitions.insert p { r with agents := r.agents.map fun a => a.evaluate e },
        (offerAll e r.agents b).2)

def Held (J : ρ → (below : List Level) → Post → Children below × Books → Prop) (x : ρ)
    (below : List Level) (post : Post) (s : Node (Children below) × Books) : Prop :=
  s.1.controller.post = post ∧ J x below post (s.1.children, s.2)

theorem minded_suiting {x : ρ} {below : List Level} {post : Post}
    {s : Node (Children below) × Books} :
    Minded .suiting J x below post s ↔ Held J x below post s :=
  ⟨fun h => ⟨h.stands, h.children⟩, fun h => ⟨h.1, trivial, h.2⟩⟩

theorem Upkeep.custody (h : env.Upkeep P J) : env.Custody .suiting P J where
  asks := h.suits
  hands _ _ := trivial
  number := h.number
  partition := h.partition
  sprout hr hJ hnew := by
    obtain ⟨y, hempty, hdone⟩ := h.sprout hr hJ hnew
    exact ⟨y, hempty, fun node b' hpost _ => hdone node b' hpost⟩
  stop := h.stop
  descend hJ hmem := by
    obtain ⟨y, hunder, hback⟩ := h.descend hJ hmem
    exact ⟨trivial, y, hunder, fun node b' hpost _ => hback node b' hpost⟩
  offer := h.offer

theorem Upkeep.serves (h : env.Upkeep P J) (below : List Level) (path : Path) (owner : Controller)
    (x : ρ) : (env.lifecycle below path owner).Serves (P owner.level) (J x below owner.post) :=
  h.custody.serves Manners.suiting_lawful below path owner x

end Setting

namespace Context

variable {ρ : Type} {P : Level → Request → Prop}
  {J : ρ → (below : List Level) → Post → Children below × Books → Prop} {x : ρ}
  {shape : Descriptor} {ss : List Statement} {c : Context} {runtime : Runtime}

def Rooted (J : ρ → (below : List Level) → Post → Children below × Books → Prop) (x : ρ)
    (c : Context) (s : Node (Children c.declaration.inner) × Books) : Prop :=
  s.1.controller.level = c.declaration.outer ∧
    J x c.declaration.inner s.1.controller.post (s.1.children, s.2)

/-- `J` of the whole tree of some levels while some statements are attached, and of no tree at all
before it comes to life. -/
structure Tends (J : ρ → (below : List Level) → Post → Children below × Books → Prop) (x : ρ)
    (shape : Descriptor) (ss : List Statement) (c : Context) : Prop where
  descriptor : c.descriptor = shape
  statements : c.statements = ss
  idle : c.root = none → ∀ id, J x c.declaration.inner (c.rootPost id) (Children.empty _, c.books)
  tree : ∀ root ∈ c.root, c.Rooted J x (root, c.books)

theorem planted_suiting {s : Node (Children c.declaration.inner) × Books} :
    c.Planted .suiting J x s ↔ c.Rooted J x s :=
  ⟨fun h => ⟨h.level, (Setting.minded_suiting.1 h.minded).2⟩,
    fun h => ⟨h.1, Setting.minded_suiting.2 ⟨rfl, h.2⟩⟩⟩

theorem tended_suiting : c.Tended .suiting J x shape ss ↔ c.Tends J x shape ss :=
  ⟨fun h => ⟨h.descriptor, h.statements, h.idle,
      fun root hroot => planted_suiting.1 (h.tree root hroot)⟩,
    fun h => ⟨h.descriptor, h.statements, h.idle,
      fun root hroot => planted_suiting.2 (h.tree root hroot)⟩⟩

variable (hup : ∀ env : Setting, env.descriptor = shape → env.statements = ss → env.Upkeep P J)

include hup

theorem awaken_tends (h : c.Tends J x shape ss) (hroot : c.root = none) :
    Ends (fun _ c' => ∃ root books,
        c' = { c with root := some root, recovery := none, books } ∧ c.Rooted J x (root, books))
      (fun _ c' => ∃ root books, c' = { c with root := some root, books } ∧
        c.Rooted J x (root, books))
      (awaken runtime c) := by
  simp only [← planted_suiting]
  exact awaken_planted Manners.suiting_lawful (fun env hshape hss => (hup env hshape hss).custody)
    (tended_suiting.2 h) hroot trivial

theorem tends_perform {op : Operation} (hop : op.Inner) (hr : ∀ r l, op.Asks r → P l r) :
    Keeps (Tends J x shape ss) (perform runtime op) :=
  (tended_perform Manners.suiting_lawful (fun env hshape hss => (hup env hshape hss).custody) hop
    hr).imp (fun _ => tended_suiting.2) (fun _ _ => tended_suiting.1) fun _ _ => tended_suiting.1

end Context

end EventContexts
