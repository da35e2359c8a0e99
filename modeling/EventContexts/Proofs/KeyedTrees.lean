import EventContexts.Proofs.Delivery
import EventContexts.Proofs.Spots
import EventContexts.Proofs.Startup
/-!
What an event does under keyed levels: it goes down its way of keys as far as the levels list its
type, and what is missing of that way starts with it. Nothing fails on the way as long as there are
paths and identifiers left.
-/

namespace EventContexts

open Act

variable {σ : Type} {life : Lifecycle σ} {e : Event}

theorem KeyedController.route_ends {c : KeyedController} {s : σ}
    {T : List Handle → KeyedController × σ → Prop} {E : Error → KeyedController × σ → Prop}
    (hnone : c.level.keyFor? e = none → T [] (c, s))
    (hfound : ∀ key h, c.level.keyFor? e = some key → c.children.find? key = some h →
      T [h] (c, s))
    (hnew : ∀ key, c.level.keyFor? e = some key → c.children.find? key = none →
      Ends (fun h t => T [] ({ c with nextPath := c.nextPath + 1
                                      children := c.children.insert key h }, t))
        (fun why t => E why (c, t))
        (life.start { path := c.nextPath, key, trigger := some e
                      properties := (Level.keyed c.level).propertiesOf key .empty } s)) :
    Ends T E (KeyedController.route life e (c, s)) := by
  cases hkey : c.level.keyFor? e with
  | none =>
      have heq : KeyedController.route life e (c, s) = (.ok [], (c, s)) := by
        simp [KeyedController.route, Act.get, bind_apply, hkey, pure_apply]
      rw [heq]
      exact hnone hkey
  | some key =>
      cases hfind : c.children.find? key with
      | some h =>
          have heq : KeyedController.route life e (c, s) = (.ok [h], (c, s)) := by
            simp [KeyedController.route, Act.get, bind_apply, hkey, hfind, pure_apply]
          rw [heq]
          exact hfound key h hkey hfind
      | none =>
          have hstart := hnew key hkey hfind
          rcases hx : life.start { path := c.nextPath, key, trigger := some e
                                   properties := (Level.keyed c.level).propertiesOf key .empty } s
            with ⟨why | h, t⟩
          · rw [hx] at hstart
            have heq : KeyedController.route life e (c, s) = (.error why, (c, t)) := by
              simp [KeyedController.route, KeyedController.start, Act.get, bind_apply, hkey, hfind,
                Request.recovering, Act.second, hx]
            rw [heq]
            exact hstart
          · rw [hx] at hstart
            have heq : KeyedController.route life e (c, s) = (.ok [],
                ({ c with nextPath := c.nextPath + 1
                          children := c.children.insert key h }, t)) := by
              simp [KeyedController.route, KeyedController.start, Act.get, bind_apply, hkey, hfind,
                Request.recovering, Act.second, hx, Act.first, Act.modify, pure_apply]
            rw [heq]
            exact hstart

theorem KeyedController.activate_ends {c : KeyedController} {s : σ} {a : Activation}
    {T : Unit → KeyedController × σ → Prop} {E : Error → KeyedController × σ → Prop}
    (hrecovered : a.recovered = []) (htrigger : a.trigger = some e)
    (h : Ends (fun _ => T ()) E (KeyedController.route life e (c, s))) :
    Ends T E (KeyedController.activate life a (c, s)) := by
  have heq : KeyedController.activate life a (c, s) =
      ((KeyedController.route life e >>= fun _ => pure ()) : Act (KeyedController × σ) Unit)
        (c, s) := by
    rw [KeyedController.activate, hrecovered, htrigger]
    rfl
  rw [heq, bind_apply]
  rcases hx : KeyedController.route life e (c, s) with ⟨why | targets, p⟩
  · rw [hx] at h
    exact h
  · rw [hx] at h
    exact h

theorem Scheme.activate_keyed_ends {c : KeyedController} {s : σ} {a : Activation}
    {T : Unit → Scheme × σ → Prop} {E : Error → Scheme × σ → Prop}
    (h : Ends (fun _ p => T () (.keyed p.1, p.2)) (fun e p => E e (.keyed p.1, p.2))
      (KeyedController.activate life a (c, s))) :
    Ends T E (Scheme.activate life a (.keyed c, s)) :=
  lift_triple (t := .keyed c) h _ rfl

theorem Scheme.route_keyed_ends {c : KeyedController} {s : σ}
    {T : List Handle → Scheme × σ → Prop} {E : Error → Scheme × σ → Prop}
    (h : Ends (fun hs p => T hs (.keyed p.1, p.2)) (fun e p => E e (.keyed p.1, p.2))
      (KeyedController.route life e (c, s))) :
    Ends T E (Scheme.route life e (.keyed c, s)) :=
  lift_triple (t := .keyed c) h _ rfl

/-- Paths have been given to `n` children at most, each in its place, and none will come back. -/
structure KeyedController.Roomy (n : Nat) (c : KeyedController) (paths : List UInt32) : Prop where
  next : c.nextPath.toNat ≤ n
  given : ∀ k ∈ paths, k.toNat < c.nextPath.toNat

namespace KeyedController.Roomy

variable {n m : Nat} {c c' : KeyedController} {paths paths' : List UInt32}

theorem mono (h : c.Roomy n paths) (hn : n ≤ m) : c.Roomy m paths :=
  ⟨Nat.le_trans h.next hn, h.given⟩

theorem subset (h : c.Roomy n paths) (hsub : paths' ⊆ paths) : c.Roomy n paths' :=
  ⟨h.next, fun k hk => h.given k (hsub hk)⟩

theorem advance (h : c.Roomy n paths) (hn : n + 1 < UInt32.size)
    (hnext : c'.nextPath = c.nextPath + 1) (hpaths : ∀ k ∈ paths', k = c.nextPath ∨ k ∈ paths) :
    c'.Roomy (n + 1) paths' := by
  have hsucc : c'.nextPath.toNat = c.nextPath.toNat + 1 := by
    rw [hnext, UInt32.toNat_add]
    exact Nat.mod_eq_of_lt (Nat.lt_of_le_of_lt (Nat.succ_le_succ h.next) hn)
  refine ⟨hsucc ▸ Nat.succ_le_succ h.next, fun k hk => ?_⟩
  rw [hsucc]
  rcases hpaths k hk with rfl | hk
  · exact Nat.lt_succ_self _
  · exact Nat.lt_succ_of_lt (h.given k hk)

end KeyedController.Roomy

def Node.Roomy (n : Nat) : (below : List Level) → Node (Children below) → Prop
  | [], _ => True
  | _ :: below, node =>
      let branches : Table (Branch (Children below)) := node.children
      (∃ c, node.controller.scheme = .keyed c ∧ c.Roomy n branches.keys) ∧
        ∀ x ∈ branches.entries, Roomy n below x.2.node

def Child.Roomy (n : Nat) : {below : List Level} → Child below → Prop
  | [], _ => True
  | _ :: below, b => Node.Roomy n below (Branch.node b)

def Request.place (r : Request) (m : Nat) : (below : List Level) → UInt32
  | [] => UInt32.ofNat m
  | _ :: _ => r.path

variable {below : List Level} {n m m' : Nat}

theorem Node.Roomy.mono {node : Node (Children below)} (h : node.Roomy n below) (hn : n ≤ m) :
    node.Roomy m below := by
  induction below with
  | nil => trivial
  | cons l below ih =>
      obtain ⟨⟨c, hscheme, hc⟩, heach⟩ := h
      exact ⟨⟨c, hscheme, hc.mono hn⟩, fun x hx => ih (heach x hx)⟩

theorem Child.Roomy.mono {a : Child below} (h : a.Roomy n) (hn : n ≤ m) : a.Roomy m := by
  cases below with
  | nil => trivial
  | cons l below => exact Node.Roomy.mono h hn

theorem Node.roomy_of_keyed {node : Node (Children below)} {c : KeyedController}
    (hscheme : node.controller.scheme = .keyed c)
    (hc : below ≠ [] → c.Roomy n node.children.table.keys)
    (heach : ∀ x ∈ node.children.table.entries, x.2.Roomy n) : node.Roomy n below := by
  cases below with
  | nil => trivial
  | cons l below => exact ⟨⟨c, hscheme, hc (by simp)⟩, heach⟩

namespace Node.Roomy

variable {node : Node (Children below)}

theorem controller (h : node.Roomy n below) {c : KeyedController}
    (hscheme : node.controller.scheme = .keyed c) (hbelow : below ≠ []) :
    c.Roomy n node.children.table.keys := by
  cases below with
  | nil => exact absurd rfl hbelow
  | cons l below =>
      obtain ⟨⟨c', hscheme', hc⟩, -⟩ := h
      obtain rfl := Scheme.keyed.inj (hscheme.symm.trans hscheme')
      exact hc

theorem each (h : node.Roomy n below) : ∀ x ∈ node.children.table.entries, x.2.Roomy n := by
  cases below with
  | nil => exact fun _ _ => trivial
  | cons l below => exact h.2

theorem replace (h : node.Roomy n below) {x : UInt32 × Child below} {a : Child below}
    {children : Children below} (hx : x ∈ node.children.table.entries)
    (hchildren : children.table = node.children.table.insert x.1 a) (ha : a.Roomy (n + 1)) :
    Node.Roomy (n + 1) below { node with children } := by
  cases below with
  | nil => trivial
  | cons l below =>
      obtain ⟨⟨c, hscheme, hc⟩, heach⟩ := h
      have hkeys : children.table.keys ⊆ node.children.table.keys := by
        intro k hk
        rcases Table.mem_keys_insert.1 (hchildren ▸ hk) with rfl | hk
        · exact List.mem_map_of_mem hx
        · exact hk
      refine ⟨⟨c, hscheme, (hc.mono (Nat.le_succ n)).subset hkeys⟩, fun y hy => ?_⟩
      · have hentries : y ∈ children.table.entries := hy
        rcases Table.mem_insert.1 (hchildren ▸ hentries) with rfl | ⟨hy, -⟩
        · exact ha
        · exact (heach y hy).mono (Nat.le_succ n)

end Node.Roomy

structure Node.Settles (e : Event) (levels : List Level) (n m : Nat) (before : List Spot)
    (s : Node (Children below) × Books) : Prop where
  roomy : s.1.Roomy (n + 1) below
  spots : ∃ m', s.2.ids.Pristine m' ∧
    Regrouped (Level.keyPath? levels e) m before m' s.1.children.spots

structure Children.Planted (e : Event) (m : Nat) (r : Request) (children : Children below)
    (s : Children below × Books) : Prop where
  child : ∃ (a : Child below) (m' : Nat), s.1.table = children.table.insert (r.place m below) a ∧
    a.Roomy 1 ∧ s.2.ids.Pristine m' ∧
    Regrouped ((Level.keyPath? below e).map (r.key :: ·)) m [] m' (Child.spots (r.place m below, a))

/-- What a keyed controller makes of an event: it goes to a live child, or a new child starts with
it, or it has no key here. -/
theorem KeyedController.route_settles {below : List Level} {n m : Nat}
    {life : Lifecycle (Children below × Books)}
    {c : KeyedController} {children : Children below} {b : Books}
    (hstart : ∀ r : Request, r.trigger = some e → r.recovered = none → r.assigned = none →
      r.place m below ∉ children.table.keys →
      Ends (fun _ => Children.Planted e m r children) (fun _ _ => False)
        (life.start r (children, b)))
    (hc : below ≠ [] → c.Roomy n children.table.keys) (hn : n + 1 < UInt32.size)
    (heach : ∀ x ∈ children.table.entries, x.2.Roomy n)
    (hfree : UInt32.ofNat m ∉ children.table.keys ∨ below ≠ [])
    (hkeys : ∀ key, c.children.find? key = none → ∀ x ∈ children.table.entries, x.2.key ≠ key)
    (hb : b.ids.Pristine m) :
    Ends (fun targets p =>
        (∃ key h, targets = [h] ∧ p = (c, (children, b)) ∧ c.level.keyFor? e = some key ∧
          c.children.find? key = some h) ∨
        targets = [] ∧ ∀ controller : Controller, controller.scheme = .keyed p.1 →
          Node.Settles e (.keyed c.level :: below) n m children.spots (⟨controller, p.2.1⟩, p.2.2))
      (fun _ _ => False) (KeyedController.route life e (c, (children, b))) := by
  have hpath (key? : Option Key) (hkey : c.level.keyFor? e = key?) :
      Level.keyPath? (.keyed c.level :: below) e =
        key?.bind fun key => (Level.keyPath? below e).map (key :: ·) := by
    rw [Level.keyPath?_cons, ← hkey]
    rfl
  apply KeyedController.route_ends
  · intro hkey
    refine .inr ⟨rfl, fun controller hscheme => ⟨?_, m, hb, ?_⟩⟩
    · exact Node.roomy_of_keyed hscheme (fun hbelow => (hc hbelow).mono (Nat.le_succ n))
        fun x hx => (heach x hx).mono (Nat.le_succ n)
    · rw [hpath _ hkey]
      exact .same (.refl _) (by simp)
  · exact fun key h hkey hfind => .inl ⟨key, h, rfl, rfl, hkey, hfind⟩
  · intro key hkey hfind
    let r : Request := { path := c.nextPath, key, trigger := some e
                         properties := (Level.keyed c.level).propertiesOf key .empty }
    have hplace : r.place m below ∉ children.table.keys := by
      cases below with
      | nil => exact hfree.resolve_right (by simp)
      | cons l below => exact fun hmem => Nat.lt_irrefl _ ((hc (by simp)).given _ hmem)
    refine (hstart r rfl rfl rfl hplace).imp ?_ fun _ _ h => h
    rintro h ⟨children', b'⟩ ⟨a, m', htable, ha, hb', hspots⟩
    refine .inr ⟨rfl, fun controller hscheme => ⟨?_, m', hb', ?_⟩⟩
    · refine Node.roomy_of_keyed hscheme (fun hbelow => ?_) fun x hx => ?_
      · refine (hc hbelow).advance hn rfl fun k hk => ?_
        have hmem := Table.mem_keys_insert.1 (htable ▸ hk)
        cases below with
        | nil => exact absurd rfl hbelow
        | cons l below => exact hmem
      · rcases Table.mem_insert.1 (htable ▸ hx) with rfl | ⟨hx, -⟩
        · exact ha.mono (Nat.succ_le_succ (Nat.zero_le n))
        · exact (heach x hx).mono (Nat.le_succ n)
    · rw [hpath _ hkey]
      refine (hspots.beside fun s hs heq => ?_).perm (.refl _)
        (Children.spots_of_new htable hplace).symm
      rw [Children.spots_eq] at hs
      obtain ⟨x, hx, hsx⟩ := List.mem_flatMap.1 hs
      rw [Child.head_spots hsx] at heq
      exact hkeys key hfind x hx (Option.some.inj heq)

namespace Setting

variable {env : Setting}

def Plants (env : Setting) (e : Event) (below : List Level) : Prop :=
  ∀ {path : Path} {owner : Controller} {children : Children below} {r : Request} {b : Books}
    {m : Nat},
    r.trigger = some e → r.recovered = none → r.assigned = none →
    r.place m below ∉ children.table.keys → b.ids.Pristine m → m < UInt32.size →
    Ends (fun _ => Children.Planted e m r children) (fun _ _ => False)
      (env.startChild below path owner r (children, b))

theorem plants_nil (hwilling : env.runtime.Willing) (hlimit : env.limit = none) :
    env.Plants e [] := by
  intro path owner children r b m htrigger hrecovered hassigned hplace hb hm
  have hallocate := hb.allocate hm
  have hcount : b.ids.count < UInt32.size := by rw [hb.count]; exact hm
  have hclaim : env.claim r.assigned b =
      (.ok (UInt32.ofNat m), { b with ids := b.ids.allocate.2 }) := by
    rw [hassigned, claim, if_pos hcount, ← hallocate.1]
  refine (startPartition_willing hwilling (by simp [hlimit]) hclaim).imp ?_ fun _ _ h => h
  rintro h ⟨partitions, b'⟩ ⟨⟨running, hkey, htable, -⟩, hlaunched⟩
  let a : Child [] := running
  refine ⟨a, m + 1, htable, trivial, ?_, ?_⟩
  · rw [hlaunched.ids]
    exact hallocate.2
  · have hspots : (Child.spots (UInt32.ofNat m, a)).Perm
        [⟨UInt32.ofNat m, running.generation, [r.key]⟩] := by
      rw [← hkey]
      exact List.Perm.refl _
    exact .new rfl (by simp) hspots

theorem activate_plants (h : env.Plants e below) (kl : KeyedLevel) {a : Activation}
    (htrigger : a.trigger = some e) (hrecovered : a.recovered = []) {b : Books}
    (hb : b.ids.Pristine m) (hm : m < UInt32.size) (id : ControllerId) (place : UInt32)
    (nesting : Nat) (path : Path) :
    Ends (fun _ p => Node.Settles e (.keyed kl :: below) 0 m [] (⟨p.1, p.2.1⟩, p.2.2))
      (fun _ _ => False)
      (Controller.activate
        (env.lifecycle below path (Controller.create (.keyed kl) id place nesting)) a
        (Controller.create (.keyed kl) id place nesting, (Children.empty below, b))) := by
  let c : KeyedController := { level := kl }
  let life := env.lifecycle below path (Controller.create (.keyed kl) id place nesting)
  have hentries : (Children.empty below).table.entries = [] := Children.entries_empty
  have hnone : (Children.empty below).table.keys = [] := by rw [Table.keys, hentries]; rfl
  have hstart : ∀ r : Request, r.trigger = some e → r.recovered = none → r.assigned = none →
      r.place m below ∉ (Children.empty below).table.keys →
      Ends (fun _ => Children.Planted e m r (Children.empty below)) (fun _ _ => False)
        (life.start r (Children.empty below, b)) :=
    fun r ht hr ha hp => h ht hr ha hp hb hm
  have hroute := KeyedController.route_settles (n := 0) (c := c) hstart
    (fun _ => ⟨Nat.le_refl _, by simp [hnone]⟩) (by decide) (by simp [hentries])
    (.inl (by simp [hnone])) (by simp [hentries]) hb
  refine Controller.run_ends (Scheme.activate_keyed_ends (c := c) ?_)
  refine KeyedController.activate_ends hrecovered htrigger (hroute.imp ?_ fun _ _ h => h)
  rintro targets p (⟨key, h, -, -, -, hfind⟩ | ⟨-, hsettles⟩)
  · cases hfind
  · rw [Children.spots_empty] at hsettles
    exact hsettles _ rfl

theorem plants_cons {kl : KeyedLevel} (h : env.Plants e below) :
    env.Plants e (.keyed kl :: below) := by
  intro path owner children r b m htrigger hrecovered hassigned hplace hb hm
  simp only [startChild]
  split
  · next hc => exact absurd (Table.contains_iff.1 hc) hplace
  · have hactivate := activate_plants h kl (a := env.activation r) htrigger
      (by simp [activation, hrecovered]) (b := { b with nextController := b.nextController + 1 })
      hb hm ⟨b.nextController⟩ r.path (owner.nesting + 1)
      (path ++ [⟨owner.level, r.key, r.properties⟩])
    split
    · next controller grown b₂ heq =>
        obtain ⟨hroomy, m', hb₂, hspots⟩ := hactivate.congr heq
        let branch : Branch (Children below) := ⟨r.key, r.properties, ⟨controller, grown⟩⟩
        let a : Child (.keyed kl :: below) := branch
        exact ⟨a, m', rfl, hroomy, hb₂, hspots.under r.key⟩
    · next why controller grown b₂ heq => exact (hactivate.congr heq).elim

theorem plants (hwilling : env.runtime.Willing) (hlimit : env.limit = none) (below : List Level)
    (hbelow : ∀ l ∈ below, l.Keyed) : env.Plants e below := by
  induction below with
  | nil => exact plants_nil hwilling hlimit
  | cons l below ih =>
      obtain ⟨⟨kl, rfl⟩, hrest⟩ := List.forall_mem_cons.1 hbelow
      exact plants_cons (ih hrest)

/-- An event that no level below has to see, or that is on its way to one child. -/
structure Forwards (e : Event) (n m : Nat) (s : Node (Children below) × Books)
    (targets : List Handle) (t : Node (Children below) × Books) : Prop where
  onward : (targets = [] ∧
      Node.Settles e (s.1.controller.level :: below) n m s.1.children.spots t) ∨
    ∃ x ∈ s.1.children.table.entries, targets = [x.2.handle s.1.controller.id x.1] ∧ t = s ∧
      s.1.controller.level.keyFor? e = some x.2.key

variable {limit : Option Nat} {since : Nat} {rest : List Number} {path : Path} {post : Post}
  {each : UInt32 × Child below → Prop} {node : Node (Children below)} {b : Books}

theorem route_forwards (hwilling : env.runtime.Willing) (hlimit : env.limit = none)
    (hkeyed : ∀ l ∈ node.controller.level :: below, l.Keyed)
    (hs : Stands limit since True post rest each (node, b)) (hroomy : node.Roomy n below)
    (hn : n + 1 < UInt32.size) (hb : b.ids.Pristine m) (hm : m < UInt32.size) :
    Triple (fun s => s = (node, b)) (env.drive below path fun life => Controller.route life e)
      (Forwards e n m (node, b)) (fun _ _ => False) := by
  rintro _ rfl
  obtain ⟨⟨kl, hl⟩, hbelow⟩ := List.forall_mem_cons.1 hkeyed
  obtain ⟨c, hscheme⟩ : ∃ c, node.controller.scheme = .keyed c := by
    cases hscheme : node.controller.scheme with
    | keyed c => exact ⟨c, rfl⟩
    | _ =>
        rw [Controller.level, hscheme] at hl
        cases hl
  have hlevel : node.controller.level = .keyed c.level := by rw [Controller.level, hscheme]; rfl
  have hfamily : Family True node.controller.id each c.children node.children.table := by
    have hholds := hs.manned.tended.holds
    rw [← hs.manned.stands] at hholds
    rwa [hscheme] at hholds
  have hfree : UInt32.ofNat m ∉ node.children.table.keys ∨ below ≠ [] := by
    cases below with
    | nil =>
        refine .inl fun hmem => hb.not_mem_ids hm (hs.accounts.partitions.mem_iff.2 ?_)
        have hnumber := Children.partition_mem_numbers hmem
        exact List.mem_filterMap.2 ⟨_, List.mem_append_left _ hnumber, rfl⟩
    | cons l below => exact .inr (by simp)
  have hkeys : ∀ key, c.children.find? key = none →
      ∀ x ∈ node.children.table.entries, x.2.key ≠ key := by
    rintro key hfind x hx rfl
    refine OrderedMap.find?_eq_none.1 hfind (OrderedMap.mem_keys.2
      ⟨x.2.handle node.controller.id x.1, ?_⟩)
    exact (hfamily.remembered trivial).mem_iff.2
      (List.mem_map_of_mem (f := fun x => (x.2.key, x.2.handle node.controller.id x.1)) hx)
  let life := env.lifecycle below path node.controller
  have hstart : ∀ r : Request, r.trigger = some e → r.recovered = none → r.assigned = none →
      r.place m below ∉ node.children.table.keys →
      Ends (fun _ => Children.Planted e m r node.children) (fun _ _ => False)
        (life.start r (node.children, b)) :=
    fun r ht hr ha hp => env.plants hwilling hlimit below hbelow ht hr ha hp hb hm
  have hroute := KeyedController.route_settles (c := c) hstart
    (hroomy.controller hscheme) hn hroomy.each hfree hkeys hb
  refine drive_ends (Controller.run_ends ?_)
  rw [hscheme]
  refine Scheme.route_keyed_ends (hroute.imp ?_ fun _ _ h => h)
  rintro targets ⟨c', children, b'⟩ (⟨key, h, rfl, heq, hkey, hfind⟩ | ⟨rfl, hsettles⟩)
  · obtain ⟨rfl, rfl, rfl⟩ : c' = c ∧ children = node.children ∧ b' = b := by
      simpa only [Prod.mk.injEq] using heq
    obtain ⟨x, hx, heq⟩ := List.mem_map.1
      ((hfamily.remembered trivial).mem_iff.1 (OrderedMap.find?_eq_some.1 hfind))
    obtain ⟨rfl, rfl⟩ := Prod.mk.inj heq
    refine ⟨.inr ⟨x, hx, rfl, ?_, ?_⟩⟩
    · rw [← hscheme]
    · rw [hlevel]
      exact hkey
  · refine ⟨.inl ⟨rfl, ?_⟩⟩
    rw [hlevel]
    exact hsettles _ rfl

theorem Settles.of_visited {l : Level} {x : UInt32 × Child below} {a : Child below}
    {children : Children below} {b' : Books}
    (hfamily : ∀ y ∈ node.children.table.entries, y.2.key = x.2.key → y = x)
    (hx : x ∈ node.children.table.entries) (hkey : l.keyFor? e = some x.2.key)
    (hchildren : children.table = node.children.table.insert x.1 a)
    (others : Children below) (hothers : others.table = node.children.table.erase x.1)
    (hroomy : Node.Roomy (n + 1) below ⟨node.controller, children⟩) (hb : b'.ids.Pristine m')
    (hspots : Regrouped ((Level.keyPath? below e).map (x.2.key :: ·)) m (Child.spots x) m'
      (Child.spots (x.1, a))) :
    Node.Settles e (l :: below) n m node.children.spots ({ node with children }, b') := by
  refine ⟨hroomy, m', hb, ?_⟩
  rw [Level.keyPath?_cons, hkey]
  refine (hspots.beside fun s hs heq => ?_).perm
    (Children.spots_of_mem (k := x.1) (a := x.2) others hothers hx).symm
    (Children.spots_of_put others hchildren hothers).symm
  rw [Children.spots_eq, hothers] at hs
  obtain ⟨y, hy, hsy⟩ := List.mem_flatMap.1 hs
  rw [Child.head_spots hsy] at heq
  obtain ⟨hy, hne⟩ := Table.mem_erase.1 hy
  exact hne (congrArg Prod.fst (hfamily y hy (Option.some.inj heq)))

theorem offer_settles (hwilling : env.runtime.Willing) (hlimit : env.limit = none)
    {Q : Leaf → Prop} (below : List Level) {path : Path} {post : Post} {rest : List Number}
    {node : Node (Children below)} {b : Books} (hkeyed : ∀ l ∈ post.level :: below, l.Keyed)
    (hs : Stands limit since True post rest (Child.Sound Q True below path post) (node, b))
    (hroomy : node.Roomy n below) (hn : n + 1 < UInt32.size) (hb : b.ids.Pristine m)
    (hm : m < UInt32.size) :
    Ends (fun _ => Node.Settles e (post.level :: below) n m node.children.spots)
      (fun _ _ => False) (env.offer e below path (node, b)) := by
  induction below generalizing path post rest b with
  | nil =>
      obtain rfl : node.controller.post = post := hs.manned.stands
      refine Triple.bind (route_forwards hwilling hlimit hkeyed hs hroomy hn hb hm)
        (fun targets => ?_) (node, b) rfl
      rintro s ⟨⟨rfl, hsettles⟩ | ⟨⟨p, x⟩, hx, rfl, rfl, hkey⟩⟩
      · exact hsettles
      · let r : Running := x
        let a : Child [] := { r with agents := r.agents.map fun a => a.evaluate e }
        refine Ends.congr ?_ (forEach_singleton.trans (offerPartition_live hx rfl)).symm
        have hoffered : (offerAll e r.agents b).2.ids.Pristine m := by
          rw [launched_offerAll.ids]
          exact hb
        refine Settles.of_visited (x := (p, x)) (a := a) (fun y hy => ?_) hx hkey rfl
          ((node.children : Table Running).erase p) rfl trivial hoffered ?_
        · exact hs.manned.tended.holds.key_inj trivial hy hx
        · refine .same (.refl _) fun keys hmem => ?_
          obtain rfl : [Child.key x] = keys := by simpa [Level.keyPath?] using hmem
          exact List.mem_singleton_self _
  | cons l below ih =>
      obtain rfl : node.controller.post = post := hs.manned.stands
      refine Triple.bind (route_forwards hwilling hlimit hkeyed hs hroomy hn hb hm)
        (fun targets => ?_) (node, b) rfl
      rintro s ⟨⟨rfl, hsettles⟩ | ⟨⟨k, x⟩, hx, rfl, rfl, hkey⟩⟩
      · exact hsettles
      · let branch : Branch (Children below) := x
        have hbranch := hs.descend hx (hs.manned.tended.holds.each (k, x) hx)
        refine Ends.congr (inBranch_ends hx rfl ?_) forEach_singleton.symm
        refine (ih (fun l' hl' => hkeyed l' (List.mem_cons_of_mem _ hl')) hbranch
          (hroomy.each (k, x) hx) hb).imp (fun _ s hsettles => ?_) fun _ _ h => h
        obtain ⟨n', b'⟩ := s
        obtain ⟨hroomy', m', hb', hspots⟩ := hsettles
        let branches : Table (Branch (Children below)) := node.children
        let branch' : Branch (Children below) := { branch with node := n' }
        let a : Child (l :: below) := branch'
        refine Settles.of_visited (x := (k, x)) (a := a) (fun y hy => ?_) hx hkey rfl
          (branches.erase k) rfl ?_ hb' (hspots.under branch.key)
        · exact hs.manned.tended.holds.key_inj trivial hy hx
        · exact hroomy.replace (a := a) hx rfl hroomy'

end Setting

end EventContexts
