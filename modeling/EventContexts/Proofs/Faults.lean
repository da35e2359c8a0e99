import EventContexts.Proofs.RegimeContexts
import Mathlib.Data.List.Dedup
/-!
Controllers never ask for a place that is taken. So no run without a recovery fails by a mistake in
the books of the context, as long as there are numbers left to count children with.
-/

namespace EventContexts

open Act

def Level.Numbered : Level → Prop
  | .category l => l.items.length < UInt32.size
  | .hash l => l.granularity.toNatClampNeg < UInt32.size
  | _ => True

theorem Level.numbered_of_sound {l : Level} (h : l.flaw? = none)
    (hcategory : ∀ m, l = .category m → m.items.length < UInt32.size) : l.Numbered := by
  cases l with
  | category m => exact hcategory m rfl
  | hash m =>
      have hflaw : m.flaw? = none := h
      rw [HashLevel.flaw?] at hflaw
      split at hflaw
      · cases hflaw
      · next hbound =>
          have hle := Int64.le_iff_toInt_le.1 (Int64.not_lt.1 (not_or.1 hbound).2)
          have hlast : (4294967295 : Int64).toInt = 4294967295 := by decide
          rw [hlast] at hle
          show m.granularity.toInt.toNat < 4294967296
          omega
  | _ => trivial

theorem HashController.pathOf_inj {m n : Nat} (hm : m < UInt32.size) (hn : n < UInt32.size)
    (h : pathOf (Int64.ofNat m) = pathOf (Int64.ofNat n)) : m = n := by
  have hpath (k : Nat) (hk : k < UInt32.size) : (pathOf (Int64.ofNat k)).toNat = k := by
    rw [pathOf, UInt64.toNat_toUInt32, Int64.toUInt64_ofNat']
    rw [UInt64.toNat_ofNat_of_lt' (Nat.lt_trans hk (by decide))]
    exact Nat.mod_eq_of_lt hk
  rw [← hpath m hm, h, hpath n hn]

namespace Scheme

variable {o : Occasion} {e : Option Event} {used used' : UInt32 → Prop} {s : Scheme} {key : Key}
  {path : UInt32} {g : Handle}

/-- Where the children stand. A keyed controller counts them, and has used each place up to the
count; it can go on unless it has just counted to the end with the event at hand. -/
def Placed (e : Option Event) (used : UInt32 → Prop) : Scheme → Prop
  | .keyed c => ∃ n ≤ UInt32.size, c.nextPath = UInt32.ofNat n ∧
      (n < UInt32.size ∨ ∃ e' ∈ e, ∃ key ∈ c.children.keys, c.level.keyFor? e' = some key) ∧
      (∀ m ∈ c.children.entries, m.2.id.toNat < n) ∧ ∀ p < n, used (UInt32.ofNat p)
  | .category c => ∀ m ∈ c.children.entries, ∃ index item, c.level.items[index]? = some item ∧
      m.1 = .category item.label ∧ m.2.id = UInt32.ofNat index
  | .hash c => ∀ m ∈ c.children.entries, ∃ n ≤ c.level.granularity.toNatClampNeg,
      m.1 = .hash (Int64.ofNat n) ∧ m.2.id = HashController.pathOf (Int64.ofNat n)
  | .episode c => ∀ m ∈ c.children.entries, ∃ start number, m.1 = .episode start number ∧
      number < c.nextNumber ∧ number.toNat < UInt32.size ∧ m.2.id = number.toUInt32
  | .temporal _ => True

theorem Placed.mono (h : s.Placed e used) (hused : ∀ p, used p → used' p) :
    s.Placed e used' := by
  cases s with
  | keyed c =>
      obtain ⟨n, hle, hnext, hroom, hbelow, hdone⟩ := h
      exact ⟨n, hle, hnext, hroom, hbelow, fun p hp => hused _ (hdone p hp)⟩
  | _ => exact h

theorem Placed.ready {e' : Option Event} (h : s.Placed e used)
    (hleft : ∀ n ≤ UInt32.size, (∀ p < n, used (UInt32.ofNat p)) → n < UInt32.size) :
    s.Placed e' used := by
  cases s with
  | keyed c =>
      obtain ⟨n, hle, hnext, -, hbelow, hdone⟩ := h
      exact ⟨n, hle, hnext, .inl (hleft n hle hdone), hbelow, hdone⟩
  | _ => exact h

theorem Placed.any (h : s.Placed none used) : s.Placed e used := by
  cases s with
  | keyed c =>
      obtain ⟨n, hle, hnext, hroom, hbelow, hdone⟩ := h
      exact ⟨n, hle, hnext, .inl (hroom.resolve_right (by simp)), hbelow, hdone⟩
  | _ => exact h

theorem Placed.room {c : KeyedController} (h : (keyed c).Placed o.event used) (ho : o.plain)
    (hopens : (keyed c).Opens o key path) : ∃ n < UInt32.size, c.nextPath = UInt32.ofNat n ∧
      (∀ m ∈ c.children.entries, m.2.id.toNat < n) ∧ ∀ p < n, used (UInt32.ofNat p) := by
  obtain ⟨hnew, -, hkey⟩ := hopens
  obtain ⟨n, hle, hnext, hroom, hbelow, hdone⟩ := h
  refine ⟨n, hroom.resolve_right ?_, hnext, hbelow, hdone⟩
  rintro ⟨e, he, key', hmem, hfor⟩
  obtain ⟨e', he', hfor'⟩ := hkey ho
  have hsame : e = e' := Option.some.inj (he.symm.trans he')
  rw [hsame, hfor'] at hfor
  exact hnew (Option.some.inj hfor ▸ hmem)

theorem Placed.free (h : s.Placed o.event used) (ho : o.plain) (hn : s.level.Numbered)
    (hopens : s.Opens o key path) : ∀ m ∈ s.children.entries, m.2.id ≠ path := by
  rintro m hm hpath
  cases s with
  | keyed c =>
      obtain ⟨n, hlt, hnext, hbelow, -⟩ := h.room ho hopens
      have hid : m.2.id.toNat < n := hbelow m hm
      rw [hpath, hopens.2.1, hnext, UInt32.toNat_ofNat_of_lt' hlt] at hid
      exact Nat.lt_irrefl n hid
  | category c =>
      obtain ⟨hnew, index, item, hitem, rfl, rfl⟩ := hopens
      obtain ⟨index', item', hitem', hkey, hid⟩ := h m hm
      have hlt : index < UInt32.size :=
        Nat.lt_trans (List.getElem?_eq_some_iff.1 hitem).1 hn
      have hlt' : index' < UInt32.size :=
        Nat.lt_trans (List.getElem?_eq_some_iff.1 hitem').1 hn
      have hsame : index' = index := by
        have hnat := congrArg UInt32.toNat (hid.symm.trans hpath)
        rwa [UInt32.toNat_ofNat_of_lt' hlt', UInt32.toNat_ofNat_of_lt' hlt] at hnat
      subst hsame
      obtain rfl := Option.some.inj (hitem.symm.trans hitem')
      exact hnew (hkey ▸ List.mem_map_of_mem hm)
  | hash c =>
      obtain ⟨hnew, bucket, -, rfl, rfl, hbucket⟩ := hopens
      obtain ⟨n, hle, rfl⟩ := hbucket ho
      obtain ⟨n', hle', hkey, hid⟩ := h m hm
      obtain rfl : n' = n := HashController.pathOf_inj (Nat.lt_of_le_of_lt hle' hn)
        (Nat.lt_of_le_of_lt hle hn) (hid.symm.trans hpath)
      exact hnew (hkey ▸ List.mem_map_of_mem hm)
  | episode c =>
      obtain ⟨start, rfl, hlt, rfl, -⟩ := hopens
      obtain ⟨start', number, -, hbefore, hlt', hid⟩ := h m hm
      have hnat : number.toNat % UInt32.size = c.nextNumber.toNat % UInt32.size :=
        congrArg UInt32.toNat (hid.symm.trans hpath)
      rw [Nat.mod_eq_of_lt hlt', Nat.mod_eq_of_lt hlt] at hnat
      exact absurd hnat (Nat.ne_of_lt (UInt64.lt_iff_toNat_lt.1 hbefore))
  | temporal c =>
      rw [TemporalController.children_none hopens.1] at hm
      cases hm

theorem Placed.fresh (h : s.Placed e used) (hopens : s.Opens o key path) :
    key ∉ s.children.keys := by
  cases s with
  | episode c =>
      obtain ⟨start, rfl, -, -, -⟩ := hopens
      intro hmem
      obtain ⟨m, hm, hkey⟩ := List.mem_map.1 hmem
      obtain ⟨start', number, hkey', hbefore, -, -⟩ := h m hm
      obtain ⟨-, rfl⟩ := Key.episode.inj (hkey.symm.trans hkey')
      exact absurd hbefore (UInt64.lt_irrefl _)
  | temporal c =>
      rw [TemporalController.children_none hopens.1]
      exact List.not_mem_nil
  | _ => exact hopens.1

theorem entries_started (hnew : key ∉ s.children.keys) (hopens : s.Opens o key path) :
    (s.started key g).children.entries.Perm ((key, g) :: s.children.entries) := by
  cases s with
  | temporal c =>
      rw [TemporalController.children_none hopens.1, started, TemporalController.children_some rfl]
      exact .refl _
  | _ =>
      refine .trans (.of_eq (OrderedMap.entries_insert hnew)) ?_
      exact List.perm_append_singleton ..

theorem Placed.started (h : s.Placed o.event used) (ho : o.plain) (hopens : s.Opens o key path)
    (hg : g.id = path) (hused : ∀ p, used p → used' p) (hpath : used' path) :
    (s.started key g).Placed o.event used' := by
  have hsplit : ∀ m ∈ (s.started key g).children.entries, m = (key, g) ∨ m ∈ s.children.entries :=
    fun m hm => List.mem_cons.1 ((entries_started (h.fresh hopens) hopens).mem_iff.1 hm)
  cases s with
  | keyed c =>
      obtain ⟨n, hlt, hnext, hbelow, hdone⟩ := h.room ho hopens
      obtain ⟨-, rfl, hkey⟩ := hopens
      obtain ⟨e, he, hfor⟩ := hkey ho
      -- the count may be at its end now, but the event starts no other child: its key is taken
      refine ⟨n + 1, hlt, ?_, .inr ⟨e, he, key, OrderedMap.mem_keys_insert.2 (.inl rfl), hfor⟩,
        fun m hm => ?_, fun p hp => ?_⟩
      · rw [hnext]
        exact (UInt32.ofNat_add n 1).symm
      · rcases hsplit m hm with rfl | hm
        · rw [hg, hnext, UInt32.toNat_ofNat_of_lt' hlt]
          exact Nat.lt_succ_self n
        · exact Nat.lt_succ_of_lt (hbelow m hm)
      · rcases Nat.lt_or_eq_of_le (Nat.le_of_lt_succ hp) with hp | rfl
        · exact hused _ (hdone p hp)
        · exact hnext ▸ hpath
  | category c =>
      obtain ⟨-, index, item, hitem, rfl, rfl⟩ := hopens
      intro m hm
      rcases hsplit m hm with rfl | hm
      · exact ⟨index, item, hitem, rfl, hg⟩
      · exact h m hm
  | hash c =>
      obtain ⟨-, bucket, -, rfl, rfl, hbucket⟩ := hopens
      obtain ⟨n, hle, rfl⟩ := hbucket ho
      intro m hm
      rcases hsplit m hm with rfl | hm
      · exact ⟨n, hle, rfl, hg⟩
      · exact h m hm
  | episode c =>
      obtain ⟨start, rfl, hlt, rfl, -⟩ := hopens
      have hnext : c.nextNumber < c.nextNumber + 1 := by
        have hsum : c.nextNumber.toNat + 1 < UInt64.size :=
          Nat.lt_of_le_of_lt hlt (by decide)
        rw [UInt64.lt_iff_toNat_lt, UInt64.toNat_add, UInt64.toNat_one, Nat.mod_eq_of_lt hsum]
        exact Nat.lt_succ_self _
      intro m hm
      rcases hsplit m hm with rfl | hm
      · exact ⟨start, c.nextNumber, rfl, hnext, hlt, hg⟩
      · obtain ⟨start', number, hkey, hbefore, hfits, hid⟩ := h m hm
        exact ⟨start', number, hkey, UInt64.lt_trans hbefore hnext, hfits, hid⟩
  | temporal c => trivial

theorem Placed.ended (h : s.Placed e used) (hending : s.Ending) :
    (s.ended key).Placed e used' := by
  cases s with
  | keyed c => exact hending.elim
  | category c => exact hending.elim
  | temporal c => trivial
  | _ => exact fun m hm => h m (OrderedMap.mem_erase.1 hm).1

theorem Placed.forget (h : s.Placed none used) : (s.forget g).Placed e used := by
  have hkept : ∀ m ∈ (s.forget g).children.entries, m ∈ s.children.entries := by
    intro m hm
    rw [entries_forget] at hm
    exact (List.mem_filter.1 hm).1
  cases s with
  | keyed c =>
      obtain ⟨n, hle, hnext, hroom, hbelow, hdone⟩ := h
      have hlt : n < UInt32.size := hroom.resolve_right (by simp)
      exact ⟨n, hle, hnext, .inl hlt, fun m hm => hbelow m (hkept m hm), hdone⟩
  | temporal c =>
      have hkind : ((temporal c).forget g).level = .temporal c.level := level_forget
      cases hforget : (temporal c).forget g with
      | temporal c' => trivial
      | _ =>
        rw [hforget] at hkind
        cases hkind
  | _ => exact fun m hm => h m (hkept m hm)

def Bare : Scheme → Prop
  | .temporal c => c.recovered = none
  | _ => True

theorem Bare.started (h : s.Bare) : (s.started key g).Bare := by
  cases s <;> exact h

theorem Bare.ended (h : s.Bare) : (s.ended key).Bare := by
  cases s <;> exact h

theorem Bare.forget (h : s.Bare) : (s.forget g).Bare := by
  cases s with
  | temporal c =>
      simp only [Scheme.forget]
      split
      · split <;> exact h
      · exact h
  | _ => trivial

theorem level_started : (s.started key g).level = s.level := by
  cases s <;> rfl

theorem level_ended : (s.ended key).level = s.level := by
  cases s <;> rfl

theorem entries_ended (hending : s.Ending) (hmem : (key, g) ∈ s.children.entries)
    (hnodup : (s.children.entries.map Prod.snd).Nodup) :
    (s.ended key).children.entries = s.children.entries.filter fun m => m.2 ≠ g := by
  have herase : (s.children.erase key).entries = s.children.entries.filter fun m => m.2 ≠ g := by
    refine List.filter_congr fun m hm => decide_eq_decide.2 (not_congr ⟨?_, ?_⟩)
    · intro hkey
      exact OrderedMap.eq_of_mem (k := key) (hkey ▸ hm) hmem
    · intro hg
      exact congrArg Prod.fst (List.inj_on_of_nodup_map hnodup hm hmem hg)
  cases s with
  | keyed c => exact hending.elim
  | category c => exact hending.elim
  | temporal c =>
      rw [← herase]
      cases hchild : c.child with
      | none =>
          rw [TemporalController.children_none hchild] at hmem
          cases hmem
      | some p =>
          rw [TemporalController.children_some hchild] at hmem ⊢
          obtain ⟨rfl, rfl⟩ := Prod.mk.inj (List.mem_singleton.1 hmem)
          rw [TemporalController.erase_singleton]
          rfl
  | _ => exact herase

end Scheme

/-- A controller above other controllers remembers the children that it has, and these stand in
places of their own. A keyed one has given its places to children that are there or were. -/
structure Seated (e : Option Event) (seen : List Handle) (c : Controller)
    (xs : List (Key × Handle)) : Prop where
  numbered : c.level.Numbered
  remembered : c.children.entries.Perm xs
  placed : c.scheme.Placed e fun p =>
    ∃ child, Handle.branch c.id p child ∈ seen ∨ Handle.branch c.id p child ∈ xs.map Prod.snd

structure Orderly (e : Option Event) (seen : List Handle) (below : List Level) (c : Controller)
    (xs : List (Key × Handle)) : Prop where
  bare : c.scheme.Bare
  seated : below ≠ [] → Seated e seen c xs

section orderly

variable {o : Occasion} {since : Nat} {seen : List Handle} {c : Controller} {l : Level}
  {below : List Level} {xs ys : List (Key × Handle)} {key : Key} {h : Handle}

theorem orderly_fresh {e : Option Event} {id : ControllerId} {place : UInt32} {nesting : Nat}
    (hl : l.Numbered) : Orderly e seen below (.create l id place nesting) [] where
  bare := by cases l <;> trivial
  seated _ :=
    { numbered := by
        rw [Controller.level, Controller.create, Scheme.level_ofLevel]
        exact hl
      remembered := by
        have hnone : (Controller.create l id place nesting).children = .empty :=
          Scheme.children_ofLevel l
        rw [hnone]
        exact .refl _
      placed := by
        cases l with
        | keyed l =>
            exact ⟨0, Nat.zero_le _, rfl, .inl (by decide), fun m hm => absurd hm List.not_mem_nil,
              fun p hp => absurd hp (Nat.not_lt_zero p)⟩
        | temporal l => trivial
        | _ => exact fun m hm => absurd hm List.not_mem_nil }

theorem Seated.started (hc : Seated o.event seen c xs) (ho : o.plain) {r : Request}
    (hr : c.scheme.Asks o r) {child : ControllerId}
    (hys : ys.Perm ((r.key, .branch c.id r.path child) :: xs)) :
    Seated o.event seen
      { c with scheme := c.scheme.started r.key (.branch c.id r.path child) } ys where
  numbered := by
    rw [Controller.level, Scheme.level_started]
    exact hc.numbered
  remembered := by
    refine (Scheme.entries_started (hc.placed.fresh hr.opens) hr.opens).trans ?_
    exact (hc.remembered.cons _).trans hys.symm
  placed := by
    have hnow : (ys.map Prod.snd).Perm (.branch c.id r.path child :: xs.map Prod.snd) :=
      hys.map Prod.snd
    refine hc.placed.started ho hr.opens rfl ?_ ⟨child, .inr ?_⟩
    · rintro p ⟨child', hseen | hlive⟩
      · exact ⟨child', .inl hseen⟩
      · exact ⟨child', .inr (hnow.mem_iff.2 (List.mem_cons_of_mem _ hlive))⟩
    · exact hnow.mem_iff.2 (List.mem_cons_self ..)

theorem Seated.ended {e : Option Event} (hc : Seated e seen c xs) (hending : c.scheme.Ending)
    (hmem : (key, h) ∈ c.children.entries) (hnodup : (xs.map Prod.snd).Nodup) :
    Seated e seen { c with scheme := c.scheme.ended key } (xs.filter fun m => m.2 ≠ h) where
  numbered := by
    rw [Controller.level, Scheme.level_ended]
    exact hc.numbered
  remembered := by
    have hlive : (c.children.entries.map Prod.snd).Nodup :=
      (hc.remembered.map Prod.snd).nodup_iff.2 hnodup
    exact (List.Perm.of_eq (Scheme.entries_ended hending hmem hlive)).trans (hc.remembered.filter _)
  placed := hc.placed.ended hending

theorem regime_orderly (ho : o.plain) : Regime o since Level.Numbered (fun e => ¬ e.Internal)
    (Orderly o.event seen) where
  fresh hl _ := orderly_fresh hl
  leaf hc _ := ⟨Scheme.Bare.started hc.bare, fun hne => absurd rfl hne⟩
  branch hc hr _ hys :=
    ⟨Scheme.Bare.started hc.bare, fun _ => (hc.seated (List.cons_ne_nil _ _)).started ho hr hys⟩
  ended hc hending hmem hnodup :=
    ⟨Scheme.Bare.ended hc.bare, fun hne => (hc.seated hne).ended hending hmem hnodup⟩
  notes {_ c _ _} hc hs := by
    obtain ⟨id, path, nesting, scheme⟩ := c
    cases hs with
    | clock c now =>
        exact ⟨trivial, fun hne => ⟨(hc.seated hne).1, (hc.seated hne).2, (hc.seated hne).3⟩⟩
    | recovered c p hp => exact ⟨hp ho, fun hne => ⟨(hc.seated hne).1, (hc.seated hne).2, trivial⟩⟩
    | finished c hnone =>
        refine ⟨hc.bare, fun hne => ⟨(hc.seated hne).1, ?_, trivial⟩⟩
        have hsame : (Scheme.temporal { c with finished := true, child := none }).children =
          (Scheme.temporal c).children := by
          rw [TemporalController.children_none hnone, TemporalController.children_none rfl]
        show (Scheme.temporal { c with finished := true, child := none }).children.entries.Perm _
        rw [hsame]
        exact (hc.seated hne).remembered
  plain _ hc hs := by
    have hbare := hc.bare
    rwa [hs] at hbare
  tells := id
  claimed hbare := absurd ho hbare
  occupied {_ _ c _ r} hc hr hmem := by
    have hseated := hc.seated (List.cons_ne_nil _ _)
    obtain ⟨m, hm, hpath⟩ := List.mem_map.1 hmem
    exact absurd hpath (hseated.placed.free ho hseated.numbered hr.opens m
      (hseated.remembered.mem_iff.2 hm))

end orderly

namespace Context

variable {c : Context} {runtime : Runtime} {op : Operation}

def Unrecovered (c : Context) : Prop := c.recovery = none

theorem Inward.unrecovered {c' : Context} (hinward : c.Inward c') (h : c.Unrecovered) :
    c'.Unrecovered := by
  obtain ⟨root, books, now, -, -⟩ := hinward
  exact h

theorem unrecovered_teardown (h : c.Unrecovered) (runtime : Runtime) (statementLevel : Bool) :
    (teardown runtime statementLevel c).2.Unrecovered := by
  obtain ⟨books, -, -, heq⟩ := teardown_eq runtime statementLevel c
  rw [heq]
  exact h

theorem unrecovered_attach {s : Statement} : Keeps Unrecovered (attach runtime s) := by
  intro c h
  refine ends_of_state ?_
  have hawaken : (awaken runtime (c.withStatement s)).2.Unrecovered := by
    simp only [awaken]
    split
    · rfl
    · exact h
  have hcase := attaches runtime s c
  generalize attach runtime s c = o at hcase ⊢
  cases hcase with
  | taken | unfit | joined | unjoined => exact h
  | awoken _ _ heq =>
      rw [heq] at hawaken
      exact hawaken
  | @unawoken e c' _ _ heq =>
      rw [heq] at hawaken
      exact unrecovered_teardown (c := c'.withoutStatement s.id) hawaken runtime false

theorem unrecovered_detach {id : StatementId} : Keeps Unrecovered (detach runtime id) := by
  intro c h
  refine ends_of_state ?_
  have hcase := detaches runtime id c
  generalize detach runtime id c = o at hcase ⊢
  cases hcase with
  | unknown | departed | idle => exact h
  | last => exact unrecovered_teardown (c := c.withoutStatement id) h runtime true

theorem unrecovered_perform : Keeps Unrecovered (perform runtime op) := by
  have hinner (hop : op.Inner) : Keeps Unrecovered (perform runtime op) :=
    fun _ h => ends_of_state ((inward_perform hop).unrecovered h)
  cases op with
  | attach s => exact unrecovered_attach
  | detach id => exact unrecovered_detach
  | _ => exact hinner trivial

def handles (c : Context) : List Handle := c.entries.flatMap fun x => x.handles.map Prod.snd

/-- The runs of a declaration that recover nothing, with all that a child has gone by after some
operation. -/
inductive Chronicle (d : Declaration) : List Handle → Context → Prop where
  | new (options : Options) (metrics : Option Metrics) :
      Chronicle d [] (Context.new d options metrics)
  | step {seen : List Handle} {c : Context} (runtime : Runtime) (op : Operation) :
      Chronicle d seen c → op.Regular →
      Chronicle d ((perform runtime op c).2.handles ++ seen) (perform runtime op c).2

end Context

def Handle.countOf (id : ControllerId) (seen : List Handle) : Nat :=
  (seen.filter fun h => h.owner = id).dedup.length

theorem Handle.countOf_mono {id : ControllerId} {seen seen' : List Handle} (h : seen ⊆ seen') :
    countOf id seen ≤ countOf id seen' := by
  refine (List.subperm_of_subset (List.nodup_dedup _) fun g hg => ?_).length_le
  rw [List.mem_dedup, List.mem_filter] at hg ⊢
  exact ⟨h hg.1, hg.2⟩

theorem Handle.countOf_le_length {id : ControllerId} {seen : List Handle} :
    countOf id seen ≤ seen.length :=
  Nat.le_trans (List.dedup_sublist _).length_le (List.length_filter_le ..)

theorem Handle.le_countOf {id : ControllerId} {seen : List Handle} {n : Nat} (hn : n ≤ UInt32.size)
    (hused : ∀ p < n, ∃ child, Handle.branch id (UInt32.ofNat p) child ∈ seen) :
    n ≤ countOf id seen := by
  let places : List UInt32 := (List.range n).map UInt32.ofNat
  have hnodup : places.Nodup := by
    refine List.Nodup.map_on (fun p hp q hq heq => ?_) List.nodup_range
    have hnat := congrArg UInt32.toNat heq
    rwa [UInt32.toNat_ofNat_of_lt' (Nat.lt_of_lt_of_le (List.mem_range.1 hp) hn),
      UInt32.toNat_ofNat_of_lt' (Nat.lt_of_lt_of_le (List.mem_range.1 hq) hn)] at hnat
  have hsub : places ⊆ (seen.filter fun h => h.owner = id).dedup.map Handle.id := by
    intro place hplace
    obtain ⟨p, hp, rfl⟩ := List.mem_map.1 hplace
    obtain ⟨child, hmem⟩ := hused p (List.mem_range.1 hp)
    exact List.mem_map.2 ⟨_, List.mem_dedup.2 (List.mem_filter.2 ⟨hmem, decide_eq_true rfl⟩), rfl⟩
  have hle := (List.subperm_of_subset hnodup hsub).length_le
  rwa [List.length_map, List.length_range, List.length_map] at hle

namespace Orderly

variable {e : Option Event} {seen seen' : List Handle} {below : List Level} {c : Controller}
  {xs : List (Key × Handle)} {h : Handle}

theorem settled (hc : Orderly e seen below c xs) (hsub : seen ⊆ seen')
    (hmet : ∀ g ∈ xs.map Prod.snd, g ∈ seen')
    (hfew : Handle.countOf c.id seen' < UInt32.size) : Orderly none seen' below c xs := by
  refine ⟨hc.bare, fun hne => ⟨(hc.seated hne).numbered, (hc.seated hne).remembered, ?_⟩⟩
  have hused : c.scheme.Placed e fun p => ∃ child, Handle.branch c.id p child ∈ seen' := by
    refine (hc.seated hne).placed.mono ?_
    rintro p ⟨child, hseen | hlive⟩
    · exact ⟨child, hsub hseen⟩
    · exact ⟨child, hmet _ hlive⟩
  have hready : c.scheme.Placed none fun p => ∃ child, Handle.branch c.id p child ∈ seen' :=
    hused.ready fun n hn hall => Nat.lt_of_le_of_lt (Handle.le_countOf hn hall) hfew
  exact hready.mono fun p ⟨child, hmem⟩ => ⟨child, .inl hmem⟩

theorem any (hc : Orderly none seen below c xs) : Orderly e seen below c xs :=
  ⟨hc.bare, fun hne =>
    ⟨(hc.seated hne).numbered, (hc.seated hne).remembered, (hc.seated hne).placed.any⟩⟩

theorem confined {ranges : List BucketRange} (hc : Orderly e seen below c xs) :
    Orderly e seen below { c with scheme := c.scheme.confined ranges } xs := by
  obtain ⟨id, path, nesting, scheme⟩ := c
  cases scheme with
  | hash c =>
      exact ⟨trivial, fun hne =>
        ⟨(hc.seated hne).numbered, (hc.seated hne).remembered, (hc.seated hne).placed⟩⟩
  | _ => exact hc

theorem forget (hc : Orderly none seen below c xs) (hmet : ∀ g ∈ xs.map Prod.snd, g ∈ seen) :
    Orderly e seen below (c.forget h) (xs.filter fun m => m.2 ≠ h) where
  bare := Scheme.Bare.forget hc.bare
  seated hne :=
    { numbered := by
        rw [Controller.level, Controller.forget, Scheme.level_forget]
        exact (hc.seated hne).numbered
      remembered := by
        rw [Controller.children, Controller.forget, Scheme.entries_forget]
        exact (hc.seated hne).remembered.filter _
      placed := by
        refine (hc.seated hne).placed.forget.mono ?_
        rintro p ⟨child, hseen | hlive⟩
        · exact ⟨child, .inl hseen⟩
        · exact ⟨child, .inl (hmet _ hlive)⟩ }

end Orderly

namespace Context

variable {c : Context} {runtime : Runtime} {op : Operation} {d : Declaration} {seen : List Handle}
  {e : Error}

structure Tidy (seen : List Handle) (c : Context) : Prop where
  unrecovered : c.Unrecovered
  orderly : c.Reigns Level.Numbered
    (fun below x xs => Orderly none seen below x xs ∧ ∀ g ∈ xs.map Prod.snd, g ∈ seen) 0

theorem Tidy.perform (h : c.Tidy seen) (hop : op.Regular) :
    Ends (fun _ => Reigns Level.Numbered
        (Steady (Orderly (op.occasion True).event seen) fun _ => True) 0)
      (fun e c' => (¬ e.Internal ∨ ∃ id, op = .detach id ∧ e = .statementUnknown id ∧
        c.isAttached id = false) ∧ c'.Reigns Level.Numbered
          (Steady (Orderly (op.occasion True).event seen) fun _ => True) 0)
      (perform runtime op c) := by
  refine perform_reigns True hop (regime_orderly trivial) habit_any ?_ ?_ ?_ ?_ h.orderly
  · intro _
    rw [h.unrecovered]
    rfl
  · exact fun _ _ _ hc => ⟨hc.1.any, trivial⟩
  · exact fun _ _ _ _ _ _ _ _ _ _ hc => hc.confined
  · exact fun _ _ _ _ _ _ hc _ _ => ⟨hc.1.forget hc.2, trivial⟩

theorem Chronicle.tidy (h : Chronicle d seen c)
    (hcategory : ∀ l, .category l ∈ d.levels → l.items.length < UInt32.size)
    (hfew : ∀ id, Handle.countOf id seen < UInt32.size) : c.Tidy seen := by
  induction h with
  | new options metrics =>
      refine ⟨rfl, ⟨fun l hl => ?_, Nat.zero_le _, ?_⟩⟩
      · exact Level.numbered_of_sound (d.sound l hl) fun m hm => hcategory m (hm ▸ hl)
      · rintro _ ⟨⟩
  | @step seen c runtime op _ hop ih =>
      have hbefore : c.Tidy seen := ih fun id =>
        Nat.lt_of_le_of_lt (Handle.countOf_mono (List.subset_append_right _ _)) (hfew id)
      have hdone : (Context.perform runtime op c).2.Reigns Level.Numbered
          (Steady (Orderly (op.occasion True).event seen) fun _ => True) 0 :=
        ((hbefore.perform hop).imp (fun _ _ h => h) fun _ _ h => h.2).state
      have hmet : (Context.perform runtime op c).2.Reigns Level.Numbered (fun _ _ xs =>
          ∀ g ∈ xs.map Prod.snd, g ∈ (Context.perform runtime op c).2.handles ++ seen) 0 := by
        refine .of_entries hdone.levels hdone.since fun x hx g hg => ?_
        exact List.mem_append_left _ (List.mem_flatMap.2 ⟨x, hx, hg⟩)
      refine ⟨(unrecovered_perform c hbefore.unrecovered).state, (hdone.and hmet).mono ?_⟩
      exact fun _ x _ h =>
        ⟨h.1.1.settled (List.subset_append_right _ _) h.2 (hfew x.id), h.2⟩

/-- No operation fails by a mistake in the books, and only a detachment of a statement that is not
attached is told that the statement is unknown. -/
theorem no_internal_error (h : Chronicle d seen c)
    (hcategory : ∀ l, .category l ∈ d.levels → l.items.length < UInt32.size)
    (hfew : ∀ id, Handle.countOf id seen < UInt32.size) (hop : op.Regular)
    (he : (perform runtime op c).1 = .error e) :
    ¬ e.Internal ∨ ∃ id, op = .detach id ∧ e = .statementUnknown id ∧ c.isAttached id = false := by
  have hdone : Ends _ _ (perform runtime op c) := (h.tidy hcategory hfew).perform hop
  rcases hperform : perform runtime op c with ⟨_ | _, c'⟩
  · rw [hperform] at hdone he
    obtain rfl := Except.error.inj he
    exact hdone.1
  · rw [hperform] at he
    cases he

theorem visited_no_internal_error : ∃ d seen, Chronicle d seen visited ∧ seen.length = 2 ∧
    (perform reluctant (.advance 20) visited).1 = .error (.stopFailed "pages" 0 "stuck") ∧
    ¬ (Error.stopFailed "pages" 0 "stuck").Internal ∧
    (perform reluctant (.detach ⟨7⟩) visited).1 = .error (.statementUnknown ⟨7⟩) ∧
    visited.isAttached ⟨7⟩ = false := by
  obtain ⟨d, seen, hrun, hlevels, hlength⟩ : ∃ d seen, Chronicle d seen visited ∧
      (∀ l ∈ d.levels, ∀ m, l ≠ .category m) ∧ seen.length = 2 := by
    refine ⟨_, _, .step .collecting (.process page) (.step .collecting (.attach _) (.new {} none)
      trivial) trivial, ?_, ?_⟩
    · simp [Declaration.levels]
    · decide +kernel
  have hcategory : ∀ m, .category m ∈ d.levels → m.items.length < UInt32.size :=
    fun m hm => absurd rfl (hlevels _ hm m)
  have hfew : ∀ id, Handle.countOf id seen < UInt32.size := fun id =>
    Nat.lt_of_le_of_lt Handle.countOf_le_length (hlength ▸ by decide)
  have hstop : (perform reluctant (.advance 20) visited).1 =
      .error (.stopFailed "pages" 0 "stuck") := by decide +kernel
  have hdetach : (perform reluctant (.detach ⟨7⟩) visited).1 = .error (.statementUnknown ⟨7⟩) := by
    decide +kernel
  refine ⟨d, seen, hrun, hlength, hstop, ?_, hdetach, ?_⟩
  · have hregular : (Operation.advance 20).Regular := trivial
    exact (no_internal_error hrun hcategory hfew hregular hstop).resolve_right (by simp)
  · have hregular : (Operation.detach ⟨7⟩).Regular := trivial
    obtain ⟨id, hop, -, hunknown⟩ :=
      (no_internal_error hrun hcategory hfew hregular hdetach).resolve_left fun h => h trivial
    cases hop
    exact hunknown

end Context

end EventContexts
