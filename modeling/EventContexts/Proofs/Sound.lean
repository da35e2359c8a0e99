import EventContexts.Context.Statements
import EventContexts.Proofs.Visits
import EventContexts.Proofs.Walks

namespace EventContexts

open Act

namespace Context

variable {c : Context} {strict : Prop} {Q : Leaf → Prop} {runtime : Runtime} {since : Nat}

def rootPost (c : Context) (id : ControllerId) : Post := ⟨id, 0, 1, c.declaration.outer⟩

def Upholds (c : Context) (since : Nat) (strict : Prop) (Q : Leaf → Prop)
    (s : Node (Children c.declaration.inner) × Books) : Prop :=
  ∃ id, Setting.Stands c.options.limit since strict (c.rootPost id) [.controller id]
    (Child.Sound Q strict c.declaration.inner [] (c.rootPost id)) s

/-- The statements of a context, its tree and its books agree. -/
structure Sound (strict : Prop) (c : Context) : Prop where
  ids : (c.statements.map Statement.id).Nodup
  active : c.root.isSome = true ↔ c.statements ≠ []
  idle : c.root = none → c.books.Accounts c.options.limit 0 []
  tree : ∀ root ∈ c.root,
    c.Upholds 0 strict (Leaf.Staffed c.descriptor c.statements) (root, c.books)

theorem flaw?_levels (c : Context) (id : ControllerId) :
    ∀ l ∈ (c.rootPost id).level :: c.declaration.inner, l.flaw? = none :=
  c.declaration.sound

theorem sound_new {declaration : Declaration} {options : Options} {metrics : Option Metrics}
    {recovery : Option (List Assignment)} :
    (Context.new declaration options metrics recovery).Sound strict where
  ids := List.nodup_nil
  active := by simp [Context.new]
  idle _ := ⟨List.Perm.refl _, List.nodup_nil, by simp, List.nodup_nil, by simp, Nat.zero_le _,
    fun _ _ => Nat.zero_le _⟩
  tree root hroot := by cases hroot

theorem Sound.onRoot {α : Type} {d : Except Error α × Context}
    {f : Node (Children c.declaration.inner) × Books →
      Option (Except Error α × (Node (Children c.declaration.inner) × Books))}
    (h : c.Sound strict)
    (hf : ∀ s, c.Upholds 0 strict (Leaf.Staffed c.descriptor c.statements) s →
      ∀ o ∈ f s, c.Upholds 0 strict (Leaf.Staffed c.descriptor c.statements) o.2)
    (hd : d.2.Sound strict) : ((c.onRoot f).getD d).2.Sound strict := by
  rw [Context.onRoot]
  split
  · exact hd
  · next root hroot =>
      cases hs : f (root, c.books) with
      | none => exact hd
      | some o =>
          have hup := hf _ (h.tree root hroot) o hs
          have hsome : c.root.isSome = true := by rw [hroot]; rfl
          refine ⟨h.ids, ⟨fun _ => h.active.1 hsome, fun _ => rfl⟩, by simp, ?_⟩
          rintro _ ⟨⟩
          exact hup

theorem keeps_upholds {α : Type} {x : Act (Node (Children c.declaration.inner) × Books) α}
    (h : ∀ id, Keeps (Setting.Stands c.options.limit since strict (c.rootPost id) [.controller id]
      (Child.Sound Q strict c.declaration.inner [] (c.rootPost id))) x) :
    Keeps (c.Upholds since strict Q) x := by
  rintro s ⟨id, hs⟩
  exact ends_of_state ⟨id, (h id s hs).state⟩

theorem keeps_process {e : Event} : Keeps (Sound strict) (process runtime e) := by
  intro c h
  refine ends_of_state (h.onRoot ?_ h)
  rintro s hs _ ⟨⟩
  have hoffer : Keeps (c.Upholds 0 strict (Leaf.Staffed c.descriptor c.statements))
      ((c.setting runtime).offer e c.declaration.inner []) :=
    keeps_upholds fun id => Setting.keeps_offer (c.setting runtime) Setting.staffed_policy
      (fun ℓ h => h.evaluate e) (c.flaw?_levels id)
  exact (hoffer s hs).state

theorem Sound.atController {α : Type} {id : ControllerId} {d : Except Error α × Context}
    {f : (below : List Level) → Path → Act (Node (Children below) × Books) α}
    (h : c.Sound strict)
    (hf : ∀ {below path post rest}, (∀ l ∈ post.level :: below, l.flaw? = none) →
      Keeps (Setting.Stands c.options.limit 0 strict post rest
        (Child.Sound (Leaf.Staffed c.descriptor c.statements) strict below path post))
        (f below path))
    (hd : d.2.Sound strict) :
    ((c.onRoot fun tree => Node.atController id f _ [] tree).getD d).2.Sound strict := by
  refine h.onRoot ?_ hd
  rintro ⟨node, b⟩ ⟨rootId, hs⟩ o ho
  have hdone := Setting.atController_ends hf (c.flaw?_levels rootId) hs ho
  exact ⟨rootId, hdone.state⟩

theorem keeps_driveEach {x : {σ : Type} → Lifecycle σ → Act (Controller × σ) Unit}
    (hx : ∀ {σ : Type} {life : Lifecycle σ} {I : Brood → σ → Prop} {post : Post},
      life.Honours (fun _ => True) I → Keeps (fun p => Controller.Manned post I p.1 p.2) (x life))
    {ids : List ControllerId} : Keeps (Sound strict) (driveEach runtime x ids) := by
  refine triple_forEach fun id _ => ?_
  intro c h
  refine ends_of_state (h.atController (fun hl => ?_) h)
  have hbelow := fun l hm => hl l (List.mem_cons_of_mem _ hm)
  exact Setting.keeps_drive (c.setting runtime) Setting.staffed_policy hbelow
    fun life hlife => hx hlife

theorem keeps_advance {now : Int64} : Keeps (Sound strict) (advance runtime now) := by
  intro c h
  have hclock : ({ c with now } : Context).Sound strict := ⟨h.ids, h.active, h.idle, h.tree⟩
  exact keeps_driveEach (fun hlife => Controller.keeps_tick hlife (fun _ _ => trivial) now) _ hclock

theorem keeps_restrict {level : Nat} {ranges : List BucketRange} :
    Keeps (Sound strict) (restrict runtime level ranges) := by
  intro c h
  rw [restrict]
  split
  · exact h
  · exact keeps_driveEach
      (fun hlife => Controller.keeps_restrict hlife (fun _ _ => trivial) ranges) _ h

theorem keeps_terminate {h : Handle} {termination : Option Props} :
    Keeps (Sound strict) (terminate runtime h termination) := by
  intro c hc
  exact ends_of_state (hc.atController (fun _ => Setting.keeps_endAt (c.setting runtime)) hc)

theorem keeps_instantiate (hstrict : ¬ strict) {originator : ControllerId} {r : Request} :
    Keeps (Sound strict) (instantiate runtime originator r) := by
  intro c hc
  refine ends_of_state (hc.atController (fun hl => ?_) hc)
  have hbelow := fun l hm => hl l (List.mem_cons_of_mem _ hm)
  exact Setting.keeps_startAt (c.setting runtime) Setting.staffed_policy hbelow hstrict

end Context

end EventContexts
