import EventContexts.Proofs.Moves
import EventContexts.Proofs.Recovery

namespace EventContexts

open Act

variable {σ : Type} {life : Lifecycle σ} {l : Level} {a : Activation} {I : σ → Prop}
  {xs rest : List Assignment} {x : Assignment} {key : Key}

abbrev Legacy : Type := Option UInt32 × Option (List Assignment)

def Request.legacy (r : Request) : Legacy := (r.assigned, r.recovered)

theorem Request.legacy_recovering {r : Request} (h : r.legacy = (none, none))
    (x? : Option Assignment) : (r.recovering x?).legacy =
      (x?.bind Assignment.partition, x?.map Assignment.children) := by
  cases x? with
  | none => exact h
  | some x => rfl

namespace Level

/-- What a controller hands to the child of a key, out of the assignments that it wakes up with.
Time ranges hand down the identifier alone, and episodes recreate nothing. -/
def bequest (l : Level) (xs : List Assignment) (key : Key) : Legacy :=
  let x? := Assignment.find? xs key
  match l with
  | .episode _ => (none, none)
  | .temporal _ => (x?.bind Assignment.partition, none)
  | _ => (x?.bind Assignment.partition, x?.map Assignment.children)

inductive Calls (l : Level) (a : Activation) (key : Key) : Prop where
  | routed {e : Event} (he : a.trigger = some e) (h : l.Routes e key)
  | eager {keys : List Key} (hkeys : l.eagerKeys? a.now = some keys) (h : key ∈ keys)
  | listed (hlazy : l.Lazy) (h : key ∈ a.recovered.map Assignment.key)
  | episode (h : l.kind = .initiatedTerminated)

end Level

structure Request.Wakes (l : Level) (a : Activation) (r : Request) : Prop where
  legacy : r.legacy = l.bequest a.recovered r.key
  calls : l.Calls a r.key

theorem Request.wakes_recovering {r : Request} {x? : Option Assignment}
    (hr : r.legacy = (none, none)) (hbequest : l.bequest a.recovered r.key =
      (x?.bind Assignment.partition, x?.map Assignment.children)) (hcalls : l.Calls a r.key) :
    (r.recovering x?).Wakes l a := by
  constructor
  · rw [legacy_recovering hr, key_recovering, hbequest]
  · rwa [key_recovering]

namespace Assignment

theorem find?_cons_self : find? (x :: rest) x.key = some x := by
  simp [find?]

theorem find?_cons_of_ne (h : x.key ≠ key) : find? (x :: rest) key = find? rest key := by
  simp [find?, h]

/-- While assignments are gone through: of the keys of a kind, those without a child are still to
come. -/
structure Ahead (kind : Key → Prop) (xs rest : List Assignment) (children : Brood) : Prop where
  within : rest ⊆ xs
  found : ∀ key, kind key → key ∉ children.keys → find? xs key = find? rest key

variable {kind : Key → Prop} {children : Brood}

theorem Ahead.start : Ahead kind xs xs children := ⟨List.Subset.refl _, fun _ _ _ => rfl⟩

theorem Ahead.first (h : Ahead kind xs (x :: rest) children) (hkind : kind x.key)
    (hnew : x.key ∉ children.keys) : find? xs x.key = some x :=
  (h.found x.key hkind hnew).trans find?_cons_self

theorem Ahead.listed (h : Ahead kind xs (x :: rest) children) :
    x.key ∈ xs.map Assignment.key :=
  List.mem_map_of_mem (h.within (List.mem_cons_self ..))

theorem Ahead.last (h : Ahead kind xs [] children) (hkind : kind key) (hnew : key ∉ children.keys) :
    find? xs key = none :=
  h.found key hkind hnew

theorem Ahead.skip (h : Ahead kind xs (x :: rest) children)
    (hx : kind x.key → x.key ∈ children.keys) : Ahead kind xs rest children := by
  refine ⟨(List.cons_subset.1 h.within).2, fun key hkind hnew => ?_⟩
  have hne : x.key ≠ key := by
    rintro rfl
    exact hnew (hx hkind)
  rw [h.found key hkind hnew, find?_cons_of_ne hne]

theorem Ahead.insert (h : Ahead kind xs (x :: rest) children) (handle : Handle) :
    Ahead kind xs rest (children.insert x.key handle) := by
  refine ⟨(List.cons_subset.1 h.within).2, fun key hkind hnew => ?_⟩
  rw [OrderedMap.mem_keys_insert, not_or] at hnew
  rw [h.found key hkind hnew.2, find?_cons_of_ne (Ne.symm hnew.1)]

end Assignment

namespace KeyedController

variable {kl : KeyedLevel}

structure Waking (kl : KeyedLevel) (I : σ → Prop) (xs rest : List Assignment)
    (p : KeyedController × σ) : Prop where
  serving : Serving kl I p
  ahead : Assignment.Ahead (fun key => ∃ values, key = .keyed values) xs rest p.1.children

variable (hlife : life.Serves (Request.Wakes (.keyed kl) a) I)

include hlife

theorem start_ends {values : List Value} {trigger : Option Event} {x? : Option Assignment}
    {c : KeyedController} {s : σ} (hserving : Serving kl I (c, s))
    (hx : Assignment.find? a.recovered (.keyed values) = x?)
    (hcalls : (Level.keyed kl).Calls a (.keyed values)) :
    Ends (fun _ p => Serving kl I p ∧
        ∃ h, p.1.children = c.children.insert (.keyed values) h)
      (fun _ => Serving kl I) (start life (.keyed values) trigger x? (c, s)) := by
  obtain ⟨hlevel, hI⟩ := hserving
  subst hx
  refine ends_second_first ((hlife.start (Request.wakes_recovering rfl rfl hcalls) s hI).imp ?_ ?_)
  · exact fun h t ht => ⟨⟨hlevel, ht⟩, h, rfl⟩
  · exact fun _ t ht => ⟨hlevel, ht⟩

theorem wakes_recover (x : Assignment) (rest : List Assignment) :
    Triple (Waking kl I a.recovered (x :: rest)) (recover life x)
      (fun _ => Waking kl I a.recovered rest) (fun _ => Serving kl I) := by
  refine triple_get_bind fun (c, s) ⟨hserving, hahead⟩ => ?_
  cases hkey : x.key with
  | keyed values =>
      simp only
      split
      · next hlive =>
          have hmem : x.key ∈ c.children.keys := hkey ▸ OrderedMap.contains_iff.1 hlive
          exact triple_return ⟨hserving, hahead.skip fun _ => hmem⟩
      · next hlive =>
          -- no assignment before this one had the key, or its child would be there
          have hnew : x.key ∉ c.children.keys := fun hmem =>
            hlive (OrderedMap.contains_iff.2 (hkey ▸ hmem))
          have hfirst : Assignment.find? a.recovered (.keyed values) = some x :=
            hkey ▸ hahead.first ⟨values, hkey⟩ hnew
          have hcalls : (Level.keyed kl).Calls a (.keyed values) :=
            .listed trivial (hkey ▸ hahead.listed)
          rintro _ rfl
          refine (start_ends hlife hserving hfirst hcalls).imp ?_ fun _ _ h => h
          rintro - p ⟨hserving, h, hchildren⟩
          exact ⟨hserving, hchildren ▸ hkey ▸ hahead.insert h⟩
  | _ =>
      refine triple_return ⟨hserving, hahead.skip ?_⟩
      rintro ⟨values, hvalues⟩
      cases hkey.symm.trans hvalues

theorem wakes_route {e : Event} (he : a.trigger = some e) :
    Triple (Waking kl I a.recovered []) (route life e) (fun _ => Serving kl I)
      (fun _ => Serving kl I) := by
  refine triple_get_bind fun (c, s) ⟨hserving, hahead⟩ => ?_
  cases hkey : c.level.keyFor? e with
  | none =>
      simp only [hkey]
      exact triple_return hserving
  | some key =>
      obtain ⟨values, rfl⟩ := keyFor?_eq_some hkey
      simp only [hkey]
      split
      · exact triple_return hserving
      · next hfind =>
          have hlast : Assignment.find? a.recovered (.keyed values) = none :=
            hahead.last ⟨values, rfl⟩ (OrderedMap.find?_eq_none.1 hfind)
          have hcalls : (Level.keyed kl).Calls a (.keyed values) := .routed he (hserving.1 ▸ hkey)
          refine Triple.bind (Q := fun _ => Serving kl I) ?_ fun _ => keeps_pure
          rintro _ rfl
          exact (start_ends hlife hserving hlast hcalls).imp (fun _ _ h => h.1) fun _ _ h => h

theorem wakes_activate : Keeps (Serving kl I) (activate life a) := by
  have hloop := triple_forEach_rest a.recovered (wakes_recover hlife)
  refine Triple.bind (hloop.imp (fun _ h => ⟨h, .start⟩) (fun _ _ h => h) fun _ _ h => h)
    fun _ => ?_
  cases htrigger : a.trigger with
  | none => exact triple_pure fun _ h => h.serving
  | some e => exact (wakes_route hlife htrigger).bind fun _ => keeps_pure

end KeyedController

namespace CategoryController

variable {cl : CategoryLevel}

theorem wakes_activate (hlife : life.Serves (Request.Wakes (.category cl) a) I) :
    Keeps (Serving cl I) (activate life a) := by
  refine keeps_get_bind fun (c, _) hc => triple_forEach fun (i, index) hi => ?_
  obtain rfl : c.level = cl := hc.1
  refine keeps_get_bind fun (c', _) _ => ?_
  simp only
  split
  · exact keeps_pure
  · have hcalls : (Level.category c.level).Calls a (.category i.label) :=
      .eager rfl (List.mem_map_of_mem (List.fst_mem_of_mem_zipIdx hi))
    exact hlife.keeps_start (Request.wakes_recovering rfl rfl hcalls) fun _ _ h => h

end CategoryController

namespace HashController

variable {hl : HashLevel}

def Covers (c : HashController) (key : Key) : Prop :=
  ∃ bucket, key = .hash bucket ∧ c.maintains bucket = true

structure Waking (hl : HashLevel) (I : σ → Prop) (xs rest : List Assignment)
    (p : HashController × σ) : Prop where
  serving : Serving hl I p
  ahead : Assignment.Ahead p.1.Covers xs rest p.1.children

variable (hlife : life.Serves (Request.Wakes (.hash hl) a) I)

include hlife

theorem start_ends {bucket : Int64} {trigger : Option Event} {x? : Option Assignment}
    {c : HashController} {s : σ} (hserving : Serving hl I (c, s))
    (hx : Assignment.find? a.recovered (.hash bucket) = x?)
    (hcalls : (Level.hash hl).Calls a (.hash bucket)) :
    Ends (fun _ p => Serving hl I p ∧
        ∃ h, p.1 = { c with children := c.children.insert (.hash bucket) h })
      (fun _ => Serving hl I) (start life bucket trigger x? (c, s)) := by
  obtain ⟨hlevel, hI⟩ := hserving
  subst hx
  refine ends_second_first ((hlife.start (Request.wakes_recovering rfl rfl hcalls) s hI).imp ?_ ?_)
  · exact fun h t ht => ⟨⟨hlevel, ht⟩, h, rfl⟩
  · exact fun _ t ht => ⟨hlevel, ht⟩

theorem wakes_preallocate (heager : hl.preallocate = true) {count first : Nat}
    (hcount : first + count ≤ hl.granularity.toNatClampNeg) :
    Keeps (Serving hl I) (preallocate life a count first) := by
  induction count generalizing first with
  | zero => exact keeps_pure
  | succ count ih =>
      have hrest : Keeps (Serving hl I) (preallocate life a count (first + 1)) :=
        ih (by omega)
      refine triple_get_bind fun (c, s) hserving => ?_
      simp only
      split
      · have hkeys : (Level.hash hl).eagerKeys? a.now = some
            ((List.range hl.granularity.toNatClampNeg).map fun i => .hash (Int64.ofNat i)) := by
          simp [Level.eagerKeys?, heager]
        have hcalls : (Level.hash hl).Calls a (.hash (Int64.ofNat first)) :=
          .eager hkeys (List.mem_map.2 ⟨first, List.mem_range.2 (by omega), rfl⟩)
        refine Triple.bind (Q := fun _ => Serving hl I) ?_ fun _ => hrest
        rintro _ rfl
        exact (start_ends hlife hserving rfl hcalls).imp (fun _ _ h => h.1) fun _ _ h => h
      · exact hrest.starting hserving

theorem wakes_recover (hlazy : hl.preallocate = false) (x : Assignment)
    (rest : List Assignment) :
    Triple (Waking hl I a.recovered (x :: rest)) (recover life x)
      (fun _ => Waking hl I a.recovered rest) (fun _ => Serving hl I) := by
  refine triple_get_bind fun (c, s) ⟨hserving, hahead⟩ => ?_
  cases hkey : x.key with
  | hash bucket =>
      simp only
      split
      · next hmissing =>
          obtain ⟨hmaintained, hnew⟩ := maintained_and_new hmissing
          have hfirst : Assignment.find? a.recovered (.hash bucket) = some x :=
            hkey ▸ hahead.first ⟨bucket, hkey, hmaintained⟩ (hkey ▸ hnew)
          have hcalls : (Level.hash hl).Calls a (.hash bucket) :=
            .listed hlazy (hkey ▸ hahead.listed)
          rintro _ rfl
          refine (start_ends hlife hserving hfirst hcalls).imp ?_ fun _ _ h => h
          rintro - ⟨c', s'⟩ ⟨hserving, h, rfl⟩
          exact ⟨hserving, hkey ▸ hahead.insert h⟩
      · next hmissing =>
          -- a bucket out of range stays without a child, but `Ahead` is about the maintained ones
          refine triple_return ⟨hserving, hahead.skip ?_⟩
          rintro ⟨b, hb, hmaintained⟩
          obtain rfl := Key.hash.inj (hkey.symm.trans hb)
          by_contra hnew
          have hnew : c.children.contains (.hash bucket) = false :=
            OrderedMap.contains_eq_false.2 (hkey ▸ hnew)
          simp [hmaintained, hnew] at hmissing
  | _ =>
      refine triple_return ⟨hserving, hahead.skip ?_⟩
      rintro ⟨bucket, hbucket, -⟩
      cases hkey.symm.trans hbucket

theorem wakes_route {e : Event} (he : a.trigger = some e) :
    Triple (Waking hl I a.recovered []) (route life e) (fun _ => Serving hl I)
      (fun _ => Serving hl I) := by
  refine triple_get_bind fun (c, s) ⟨hserving, hahead⟩ => ?_
  cases hbucket : c.level.bucketOf? e with
  | none =>
      simp only [hbucket]
      exact triple_return hserving
  | some bucket =>
      simp only [hbucket]
      split
      · next hmaintained =>
          split
          · exact triple_return hserving
          · next hfind =>
              have hlast : Assignment.find? a.recovered (.hash bucket) = none :=
                hahead.last ⟨bucket, rfl, hmaintained⟩ (OrderedMap.find?_eq_none.1 hfind)
              have hcalls : (Level.hash hl).Calls a (.hash bucket) :=
                .routed he ⟨bucket, rfl, hserving.1 ▸ hbucket⟩
              refine Triple.bind (Q := fun _ => Serving hl I) ?_ fun _ => keeps_pure
              rintro _ rfl
              exact (start_ends hlife hserving hlast hcalls).imp (fun _ _ h => h.1) fun _ _ h => h
      · exact triple_return hserving

theorem wakes_activate : Keeps (Serving hl I) (activate life a) := by
  refine keeps_get_bind fun (c, _) hc => ?_
  obtain rfl : c.level = hl := hc.1
  cases heager : c.level.preallocate with
  | true =>
      simp only [heager, if_true]
      refine keeps_get_bind fun (c', _) hc' => ?_
      obtain hlevel : c'.level = c.level := hc'.1
      exact wakes_preallocate hlife heager (Nat.le_of_eq (by rw [Nat.zero_add, hlevel]))
  | false =>
      simp only [heager, Bool.false_eq_true, if_false]
      have hloop := triple_forEach_rest a.recovered (wakes_recover hlife heager)
      refine Triple.bind (hloop.imp (fun _ h => ⟨h, .start⟩) (fun _ _ h => h) fun _ _ h => h)
        fun _ => ?_
      cases htrigger : a.trigger with
      | none => exact triple_pure fun _ h => h.serving
      | some e => exact (wakes_route hlife htrigger).bind fun _ => keeps_pure

end HashController

namespace EpisodeController

variable {el : EpisodeLevel}

theorem wakes_activate (hlife : life.Serves (Request.Wakes (.episode el) a) I) :
    Keeps (Serving el I) (activate life a) :=
  activate_triple hlife (fun _ _ _ _ _ _ _ => ⟨rfl, .episode rfl⟩) (fun _ h => h)
    (fun _ _ h => h) fun _ _ _ _ _ => ⟨rfl, .episode rfl⟩

end EpisodeController

namespace TemporalController

variable {tl : TemporalLevel}

theorem wakes_activate (hlife : life.Serves (Request.Wakes (.temporal tl) a) I) :
    Keeps (Serving tl I) (activate life a) := by
  let Found (c : TemporalController) : Prop := c.level = tl ∧
    c.recovered = (Assignment.find? a.recovered tl.key).bind Assignment.partition
  refine Triple.bind (Q := fun _ => Both Found I) ?_ fun _ => triple_get_bind ?_
  · refine Triple.first fun _ => triple_modify ?_
    rintro c ⟨rfl, hI⟩
    exact ⟨⟨rfl, rfl⟩, hI⟩
  · rintro ⟨c, s⟩ ⟨⟨rfl, hfound⟩, hI⟩
    refine Triple.starting (P := Serving c.level I) ?_ ⟨rfl, hI⟩
    simp only
    split
    · refine keeps_get_bind fun (c', _) _ => ?_
      refine Triple.bind (keeps_first_modify fun _ h => h) fun _ => ?_
      split
      · exact keeps_second (hlife.stop _)
      · exact keeps_pure
    · next hstop =>
        split
        · next hstart =>
            refine Triple.bind (keeps_first_modify fun _ h => h) fun _ => ?_
            refine hlife.keeps_start ⟨?_, ?_⟩ fun _ _ h => h
            · exact congrArg (·, none) hfound
            · have hnow : c.level.start ≤ a.now ∧ a.now < c.level.stop :=
                ⟨hstart.1, Int64.not_le.1 hstop⟩
              have hkeys : (Level.temporal c.level).eagerKeys? a.now = some [c.level.key] :=
                congrArg some (if_pos hnow)
              exact .eager hkeys (List.mem_singleton_self _)
        · exact keeps_pure

end TemporalController

namespace Scheme

theorem wakes_activate (hlife : life.Serves (Request.Wakes l a) I) :
    Keeps (Serving l I) (activate life a) := by
  refine triple_get_bind fun (scheme, s) ⟨hl, hI⟩ => ?_
  subst hl
  cases scheme with
  | keyed c =>
      exact serves_lift (KeyedController.wakes_activate hlife) rfl hI fun _ => congrArg Level.keyed
  | category c =>
      exact serves_lift (CategoryController.wakes_activate hlife) rfl hI
        fun _ => congrArg Level.category
  | hash c =>
      exact serves_lift (HashController.wakes_activate hlife) rfl hI fun _ => congrArg Level.hash
  | episode c =>
      exact serves_lift (EpisodeController.wakes_activate hlife) rfl hI
        fun _ => congrArg Level.episode
  | temporal c =>
      exact serves_lift (TemporalController.wakes_activate hlife) rfl hI
        fun _ => congrArg Level.temporal

end Scheme

theorem Controller.wakes_activate {post : Post}
    (hlife : life.Serves (Request.Wakes post.level a) I) :
    Keeps (Serving post I) (activate life a) :=
  serves_run (Scheme.wakes_activate hlife)

end EventContexts
