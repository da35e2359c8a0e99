import EventContexts.Proofs.Layers

namespace EventContexts

open Act

variable {σ : Type} {life : Lifecycle σ} {l : HashLevel} {ranges : List BucketRange}
  {brood : Brood}

def Key.Within (ranges : List BucketRange) (key : Key) : Prop :=
  ∃ bucket, key = .hash bucket ∧ ∃ r ∈ ranges, r.contains bucket = true

def Key.Below (count : Nat) (key : Key) : Prop := ∃ n < count, key = .hash (Int64.ofNat n)

def HashLevel.Preallocates (l : HashLevel) (key : Key) : Prop :=
  l.preallocate = true ∧ key.Below l.granularity.toNatClampNeg

namespace HashController

variable {c : HashController}

theorem maintains_iff (hranges : c.ranges = some ranges) {bucket : Int64} :
    c.maintains bucket = true ↔ Key.Within ranges (.hash bucket) := by
  rw [maintains, hranges, List.any_eq_true]
  constructor
  · exact fun h => ⟨bucket, rfl, h⟩
  · rintro ⟨_, ⟨rfl⟩, h⟩
    exact h

theorem not_within_of_outside (hranges : c.ranges = some ranges) {m : Key × Handle}
    (hm : m ∈ c.outside) : ¬ m.1.Within ranges := by
  obtain ⟨-, hout⟩ := List.mem_filter.1 hm
  rintro ⟨bucket, hkey, hr⟩
  have hmaintains : c.maintains bucket = true := (maintains_iff hranges).2 ⟨bucket, rfl, hr⟩
  simp [hkey, hmaintains] at hout

/-- A controller that has been told of ranges: the buckets in range that were in the brood are still
there, and there are no others but those that the controller starts by itself. -/
structure Narrowed (l : HashLevel) (ranges : List BucketRange) (brood : Brood)
    (c : HashController) : Prop where
  level : c.level = l
  told : c.ranges = some ranges
  kept : ∀ m ∈ brood.entries, m.1.Within ranges → m ∈ c.children.entries
  known : ∀ key ∈ c.children.keys, key ∈ brood.keys ∨ l.Preallocates key

structure Refilled (l : HashLevel) (ranges : List BucketRange) (brood : Brood) (due : Key → Prop)
    (c : HashController) : Prop extends Narrowed l ranges brood c where
  filled : ∀ key, due key → key.Within ranges → key ∈ c.children.keys

theorem narrowed_endChild {m : Key × Handle} (hm : ¬ m.1.Within ranges) :
    Keeps (Both (Narrowed l ranges brood) fun _ : σ => True) (endChild life m) := by
  refine Triple.bind (Q := fun _ => Both (Narrowed l ranges brood) fun _ => True) ?_ fun _ =>
    keeps_second (life.serves_true.stop m.2)
  refine keeps_first_modify fun c hc => ⟨hc.level, hc.told, fun x hx hin => ?_, fun key hkey => ?_⟩
  · refine OrderedMap.mem_erase.2 ⟨hc.kept x hx hin, fun heq => ?_⟩
    exact hm (heq ▸ hin)
  · exact hc.known key (OrderedMap.mem_keys_erase.1 hkey).1

theorem Refilled.next {first : Nat} (hc : Refilled l ranges brood (Key.Below first) c)
    (hfirst : Key.Within ranges (.hash (Int64.ofNat first)) →
      .hash (Int64.ofNat first) ∈ c.children.keys) :
    Refilled l ranges brood (Key.Below (first + 1)) c := by
  refine ⟨hc.toNarrowed, ?_⟩
  rintro key ⟨n, hn, rfl⟩ hin
  rcases Nat.lt_succ_iff_lt_or_eq.1 hn with hn | rfl
  · exact hc.filled _ ⟨n, hn, rfl⟩ hin
  · exact hfirst hin

theorem refilled_start {bucket : Int64} (hdue : l.Preallocates (.hash bucket)) {due : Key → Prop}
    (hc : Refilled l ranges brood due c) {s : σ} (hnew : .hash bucket ∉ c.children.keys)
    {trigger : Option Event} {recovered : Option Assignment} :
    Ends (fun _ p => Refilled l ranges brood due p.1 ∧ .hash bucket ∈ p.1.children.keys)
      (fun _ _ => True) (start life bucket trigger recovered (c, s)) := by
  refine (Triple.bind (P := fun p => p.1 = c) (Q := fun _ p => p.1 = c) (E := fun _ _ => True) ?_
    fun handle => ?_) (c, s) rfl
  · exact Triple.second fun m s hm => (ends_of_state (P := fun _ => True) trivial).imp
      (fun _ _ _ => hm) fun _ _ h => h
  · refine Triple.first fun s => triple_modify ?_
    rintro c rfl
    have hentries : (c.children.insert (.hash bucket) handle).entries =
        c.children.entries ++ [(.hash bucket, handle)] := OrderedMap.entries_insert hnew
    refine ⟨⟨⟨hc.level, hc.told, fun m hm hin => ?_, fun key hkey => ?_⟩, fun key hkey hin => ?_⟩,
      OrderedMap.mem_keys_insert.2 (.inl rfl)⟩
    · rw [hentries]
      exact List.mem_append_left _ (hc.kept m hm hin)
    · rcases OrderedMap.mem_keys_insert.1 hkey with rfl | hkey
      · exact .inr hdue
      · exact hc.known key hkey
    · exact OrderedMap.mem_keys_insert.2 (.inr (hc.filled key hkey hin))

theorem refilled_preallocate (hpre : l.preallocate = true) (a : Activation) {count first : Nat}
    (hcount : first + count ≤ l.granularity.toNatClampNeg) :
    Triple (fun p : HashController × σ => Refilled l ranges brood (Key.Below first) p.1)
      (preallocate life a count first)
      (fun _ p => Refilled l ranges brood (Key.Below (first + count)) p.1) fun _ _ => True := by
  induction count generalizing first with
  | zero => exact triple_pure fun _ h => h
  | succ count ih =>
      have hrest := @ih (first + 1) (by omega)
      rw [Nat.add_right_comm] at hrest
      refine triple_get_bind fun (c, s) hc => ?_
      simp only
      split
      · next hmissing =>
          obtain ⟨-, hnew⟩ := Bool.and_eq_true_iff.1 hmissing
          rw [Bool.not_eq_true', OrderedMap.contains_eq_false] at hnew
          refine Triple.bind ?_ fun _ => hrest
          rintro _ rfl
          exact (refilled_start ⟨hpre, first, by omega, rfl⟩ hc hnew).imp
            (fun _ _ hp => hp.1.next fun _ => hp.2) fun _ _ h => h
      · next hthere =>
          refine hrest.starting (hc.next fun hin => ?_)
          have hmaintains := (maintains_iff hc.told).2 hin
          simpa [hmaintains, OrderedMap.contains_iff] using hthere

theorem refilled_restrict (hlevel : c.level = l) {s : σ} :
    Ends (fun _ p => Refilled l ranges c.children l.Preallocates p.1) (fun _ _ => True)
      (restrict life ranges (c, s)) := by
  let told : HashController := { c with ranges := some ranges }
  have htold : Narrowed l ranges c.children told :=
    ⟨hlevel, rfl, fun _ hm _ => hm, fun _ hkey => .inl hkey⟩
  have hended : Keeps (Both (Narrowed l ranges c.children) fun _ : σ => True)
      (forAll (endChild life) told.outside) :=
    keeps_forAll fun m hm => narrowed_endChild (not_within_of_outside rfl hm)
  refine (Triple.bind (P := fun p => p = (c, s)) (Q := fun _ p => p.1 = told) ?_ fun _ => ?_)
    (c, s) rfl
  · refine Triple.first fun _ => triple_modify ?_
    rintro _ ⟨⟩
    rfl
  · apply triple_get_bind
    rintro ⟨_, t⟩ rfl
    refine Triple.bind (Q := fun _ p => Narrowed l ranges c.children p.1) ?_ fun ended => ?_
    · exact (hended.starting ⟨htold, trivial⟩).attempt.imp (fun _ h => h)
        (fun _ _ h => h.state.1) fun _ _ h => h
    · have htell : Triple
          (fun p : HashController × σ => Refilled l ranges c.children l.Preallocates p.1)
          (Act.ofExcept ended) (fun _ p => Refilled l ranges c.children l.Preallocates p.1)
          fun _ _ => True :=
        triple_ofExcept (fun _ _ _ h => h) fun _ _ _ _ => trivial
      simp only
      split
      · next hpre =>
          have hpre : l.preallocate = true := hlevel ▸ hpre
          refine Triple.bind ?_ fun _ => htell
          refine triple_get_bind fun (c', t') hc' => ?_
          have hfill : Triple _
              (preallocate life {} l.granularity.toNatClampNeg 0)
              (fun _ p => Refilled l ranges c.children (Key.Below _) p.1) fun _ _ => True :=
            refilled_preallocate hpre {} (Nat.le_of_eq (Nat.zero_add _))
          have hlevel' : c'.level = l := hc'.level
          rw [Nat.zero_add] at hfill
          simp only [hlevel']
          refine (hfill.starting ⟨hc', ?_⟩).imp (fun _ h => h) (fun _ p hp => ?_) fun _ _ h => h
          · rintro key ⟨n, hn, -⟩
            exact absurd hn (Nat.not_lt_zero n)
          · exact ⟨hp.toNarrowed, fun key hkey => hp.filled key hkey.2⟩
      · next hpre =>
          refine htell.imp (fun p hp => ⟨hp, fun key hkey => ?_⟩) (fun _ _ h => h) fun _ _ h => h
          exact absurd (hlevel ▸ hkey.1) hpre

end HashController

namespace Scheme

theorem eq_hash_of_level {s : Scheme} (h : s.level = .hash l) :
    ∃ c : HashController, s = .hash c ∧ c.level = l := by
  cases s with
  | hash c => exact ⟨c, rfl, Level.hash.inj h⟩
  | _ => cases h

theorem refilled_restrict {c : HashController} (hlevel : c.level = l) {s : σ} :
    Ends (fun _ p => ∃ c' : HashController, p.1 = .hash c' ∧
        HashController.Refilled l ranges c.children l.Preallocates c') (fun _ _ => True)
      (restrict life ranges (.hash c, s)) := by
  refine (triple_get_bind (P := fun p => p = (.hash c, s)) ?_) _ rfl
  rintro _ rfl
  refine lift_triple ((HashController.refilled_restrict hlevel).imp ?_ fun _ _ h => h)
  exact fun _ p hp => ⟨p.1, rfl, hp⟩

end Scheme

variable {below : List Level}

theorem Family.mem_keys {strict : Prop} {id : ControllerId} {each : UInt32 × Child below → Prop}
    {t : Table (Child below)} (h : Family strict id each brood t) (hs : strict) {key : Key} :
    key ∈ brood.keys ↔ ∃ e ∈ t.entries, e.2.key = key := by
  have hkeys := ((h.remembered hs).map Prod.fst).mem_iff (a := key)
  rw [List.map_map] at hkeys
  exact hkeys.trans List.mem_map

namespace Setting

variable {env : Setting} {path : Path} {owner : Controller} {rest : List Number} {b : Books}
  {children : Children below} {r : Request}

theorem startChild_fresh : Ends (fun h _ => ¬ h.Given b) (fun _ _ => True)
    (env.startChild below path owner r (children, b)) := by
  cases below with
  | nil =>
      simp only [startChild, startPartition]
      split
      · trivial
      · split
        · trivial
        · next p b₁ heq =>
            have hclaim : Keeps (Books.Advances b) (env.claim r.assigned) := Books.keeps_claim
            have hb₁ : b.Advances b₁ := (hclaim b (.refl b)).congr heq
            have hstart : Keeps (Books.Advances b)
                (env.startAgents (path ++ [⟨owner.level, r.key, capture r⟩]) p r.recovered.isSome
                  env.statements []) := fun _ h => ends_of_state (h.noted Books.notes_startAgents)
            split
            · trivial
            · next agents b₂ heq =>
                have hb₂ : b.Advances b₂ := (hstart b₁ hb₁).congr heq
                cases htrigger : r.trigger with
                | none => exact Nat.not_lt.2 hb₂.generations
                | some e => exact Nat.not_lt.2 (hb₂.noted Books.notes_offerAll).generations
  | cons m below =>
      simp only [startChild]
      split
      · trivial
      · split
        · exact Nat.lt_irrefl _
        · trivial

/-- What has become of the children of a controller since it remembered a certain brood. Those that
were there are there if it has forgotten none of their handles, and it remembers those that have
come. -/
structure Tracked (env : Setting) (owner : ControllerId) (rest : List Number) (brood : Brood)
    (children : Children below) (b : Books) (brood' : Brood) (s : Children below × Books) :
    Prop where
  advances : b.Advances s.2
  accounts : s.2.Accounts env.limit 0 (s.1.numbers ++ rest)
  held : ∀ m ∈ brood'.entries, m ∈ brood.entries ∨ ¬ m.2.Given b
  survivors : ∀ e ∈ children.table.entries, e ∈ s.1.table.entries ↔
    ∀ m ∈ brood.entries, m.2 = e.2.handle owner e.1 → m ∈ brood'.entries
  newcomers : ∀ e ∈ s.1.table.entries, e ∉ children.table.entries →
    (e.2.key, e.2.handle owner e.1) ∈ brood'.entries ∧ ¬ (e.2.handle owner e.1).Given b

theorem tracked_refl (h : b.Accounts env.limit 0 (children.numbers ++ rest)) {id : ControllerId} :
    env.Tracked id rest brood children b brood (children, b) where
  advances := .refl b
  accounts := h
  held _ hm := .inl hm
  survivors _ he := iff_of_true he fun _ hm _ => hm
  newcomers _ he hout := absurd he hout

theorem Tracked.started {id : ControllerId} {brood' : Brood} {s s' : Children below × Books}
    {key : Key} {handle : Handle} {k : UInt32} {a : Child below}
    (hs : env.Tracked id rest brood children b brood' s)
    (hgiven : ∀ e ∈ children.table.entries, (e.2.handle id e.1).Given b)
    (hkey : key ∉ brood'.keys) (hk : k ∉ s.1.table.keys)
    (ha : (a.key, a.handle id k) = (key, handle)) (hnew : ¬ handle.Given b)
    (hadvances : s.2.Advances s'.2) (haccounts : s'.2.Accounts env.limit 0 (s'.1.numbers ++ rest))
    (htable : s'.1.table = s.1.table.insert k a) :
    env.Tracked id rest brood children b (brood'.insert key handle) s' := by
  have hentries : (brood'.insert key handle).entries = brood'.entries ++ [(key, handle)] :=
    OrderedMap.entries_insert hkey
  have hmem {e : UInt32 × Child below} : e ∈ s'.1.table.entries ↔
      e = (k, a) ∨ e ∈ s.1.table.entries := by
    rw [htable, (Table.insert_perm_of_new hk).mem_iff, List.mem_cons]
  refine ⟨hs.advances.trans hadvances, haccounts, fun m hm => ?_, fun e he => ?_,
    fun e he hout => ?_⟩
  · rw [hentries] at hm
    rcases List.mem_append.1 hm with hm | hm
    · exact hs.held m hm
    · rw [List.mem_singleton.1 hm]
      exact .inr hnew
  · have hne : e ≠ (k, a) := by
      rintro rfl
      exact hnew ((Prod.mk.inj ha).2 ▸ hgiven _ he)
    rw [hmem, or_iff_right hne, hs.survivors e he]
    refine forall₃_congr fun m _ hm => ?_
    rw [hentries, List.mem_append, List.mem_singleton]
    refine (or_iff_left ?_).symm
    rintro rfl
    have hm : handle = e.2.handle id e.1 := hm
    exact hnew (hm ▸ hgiven e he)
  · rw [hentries]
    rcases hmem.1 he with rfl | he
    · exact ⟨List.mem_append_right _ (List.mem_singleton.2 ha), (Prod.mk.inj ha).2 ▸ hnew⟩
    · obtain ⟨hknown, hnew'⟩ := hs.newcomers e he hout
      exact ⟨List.mem_append_left _ hknown, hnew'⟩

theorem Tracked.ended {id : ControllerId} {brood' : Brood} {s s' : Children below × Books}
    {key : Key} {handle : Handle} (hs : env.Tracked id rest brood children b brood' s)
    (hgiven : ∀ e ∈ children.table.entries, (e.2.handle id e.1).Given b)
    (hmem : (key, handle) ∈ brood'.entries) (hadvances : s.2.Advances s'.2)
    (haccounts : s'.2.Accounts env.limit 0 (s'.1.numbers ++ rest))
    (htable : ∀ e, e ∈ s'.1.table.entries ↔
      e ∈ s.1.table.entries ∧ handle ≠ e.2.handle id e.1) :
    env.Tracked id rest brood children b (brood'.erase key) s' := by
  have hforget {m : Key × Handle} (hm : m ∈ brood'.entries) :
      m ∈ (brood'.erase key).entries ↔ m ≠ (key, handle) := by
    rw [OrderedMap.mem_erase, and_iff_right hm]
    refine not_congr ⟨fun heq => ?_, fun heq => heq ▸ rfl⟩
    exact Prod.ext heq (OrderedMap.eq_of_mem (heq ▸ hm : (key, m.2) ∈ brood'.entries) hmem)
  refine ⟨hs.advances.trans hadvances, haccounts, fun m hm => ?_, fun e he => ?_,
    fun e he hout => ?_⟩
  · exact hs.held m (OrderedMap.mem_erase.1 hm).1
  · rw [htable, hs.survivors e he]
    constructor
    · rintro ⟨hall, hne⟩ m hm hhandle
      refine (hforget (hall m hm hhandle)).2 ?_
      rintro rfl
      exact hne hhandle
    · refine fun hall => ⟨fun m hm hhandle => (OrderedMap.mem_erase.1 (hall m hm hhandle)).1, ?_⟩
      rintro rfl
      -- the handle has been given, so it is one of those from the start
      have hold : (key, e.2.handle id e.1) ∈ brood.entries :=
        (hs.held _ hmem).resolve_right fun hnew => hnew (hgiven e he)
      exact (hforget hmem).1 (hall _ hold rfl) rfl
  · obtain ⟨he, hne⟩ := (htable e).1 he
    obtain ⟨hknown, hnew⟩ := hs.newcomers e he hout
    exact ⟨(hforget hknown).2 fun heq => hne (congrArg Prod.snd heq).symm, hnew⟩

theorem tracked_start (hl : ∀ l ∈ below, l.flaw? = none) {brood' : Brood}
    (hgiven : ∀ e ∈ children.table.entries, (e.2.handle owner.id e.1).Given b)
    (hkey : r.key ∉ brood'.keys) :
    Triple (env.Tracked owner.id rest brood children b brood')
      ((env.lifecycle below path owner).start r)
      (fun h => env.Tracked owner.id rest brood children b (brood'.insert r.key h))
      (fun _ => env.Tracked owner.id rest brood children b brood') := by
  rintro ⟨children', b'⟩ hs
  have hpolicy : env.Policy 0 (fun _ _ _ => True) fun _ => True :=
    ⟨fun _ _ _ _ _ => trivial, fun _ _ _ => trivial⟩
  have hgrows : env.Grows 0 (fun _ _ _ => True) (fun _ => True) False below :=
    grows hpolicy below hl
  have hgrown := hgrows path owner rest children' r trivial (children', b') ⟨rfl, hs.accounts⟩
  have hmoved : Keeps (Issued (b', fun _ => True) below owner.post)
      ((env.lifecycle below path owner).start r) :=
    ((issued_upkeep env).serves below path owner (b', fun _ => True)).start trivial
  have hadvanced := hmoved (children', b') ⟨.refl b', fun _ _ => .inl trivial⟩
  refine ((hgrown.and startChild_fresh).and hadvanced).imp ?_ ?_
  · rintro h ⟨children'', b''⟩ ⟨⟨⟨⟨k, a, hk, htable, hh, hakey, -⟩, haccounts⟩, hfresh⟩, hissued⟩
    have hnew : ¬ h.Given b := fun hgiven => hfresh (hgiven.advances hs.advances)
    exact hs.started hgiven hkey hk (Prod.ext hakey hh.symm) hnew hissued.advances haccounts htable
  · rintro e ⟨children'', b''⟩ ⟨⟨⟨rfl, haccounts⟩, -⟩, hissued⟩
    exact ⟨hs.advances.trans hissued.advances, haccounts, hs.held, hs.survivors, hs.newcomers⟩

theorem tracked_stop {brood' : Brood} {key : Key} {handle : Handle}
    (hgiven : ∀ e ∈ children.table.entries, (e.2.handle owner.id e.1).Given b)
    (hmem : (key, handle) ∈ brood'.entries) :
    Triple (env.Tracked owner.id rest brood children b brood')
      ((env.lifecycle below path owner).stop handle)
      (fun _ => env.Tracked owner.id rest brood children b (brood'.erase key))
      (fun _ => env.Tracked owner.id rest brood children b (brood'.erase key)) := by
  rintro ⟨children', b'⟩ hs
  have hissued : Issued (b', fun _ => True) below owner.post
      (env.endChild none below owner.id handle (children', b')).2 :=
    (endChild_issued _ ⟨.refl b', fun _ _ => .inl trivial⟩).state
  by_cases hlive : ∃ e ∈ children'.table.entries, handle = e.2.handle owner.id e.1
  · obtain ⟨⟨k, a⟩, he, rfl⟩ := hlive
    have hshrunk : Shrunk env.limit 0 rest children' k
        ((env.lifecycle below path owner).stop (a.handle owner.id k) (children', b')).2 :=
      (endChild_triple he (children', b') ⟨rfl, hs.accounts⟩).state
    refine ends_of_state (hs.ended hgiven hmem hissued.advances hshrunk.accounts fun e => ?_)
    rw [hshrunk.table, Table.mem_erase]
    refine and_congr_right fun he' => not_congr ⟨fun heq => ?_, fun heq => ?_⟩
    · obtain ⟨k', a'⟩ := e
      obtain rfl : k' = k := heq
      rw [Table.eq_of_mem he he']
    · exact (Child.handle_inj heq).symm
  · have hstale : (env.lifecycle below path owner).stop handle (children', b') =
        (.ok (), (children', b')) := endChild_stale hlive
    rw [hstale]
    refine hs.ended hgiven hmem (.refl b') hs.accounts fun e => ?_
    exact ⟨fun he => ⟨he, fun heq => hlive ⟨e, he, heq⟩⟩, fun h => h.1⟩

theorem honours_tracked (hl : ∀ l ∈ below, l.flaw? = none)
    (hgiven : ∀ e ∈ children.table.entries, (e.2.handle owner.id e.1).Given b) :
    (env.lifecycle below path owner).Honours (fun _ => True)
      (env.Tracked owner.id rest brood children b) :=
  ⟨fun _ hkey => tracked_start hl hgiven hkey, tracked_stop hgiven⟩

end Setting

def Children.Live (children : Children below) (key : Key) : Prop :=
  ∃ e ∈ children.table.entries, e.2.key = key

/-- A node with buckets, before and after its controller is told of ranges. Of its children those
have gone that the controller knew as buckets outside. Where it knows all children, the live buckets
are as it remembers them, and each that stays is the same child down to its partitions. -/
structure Node.Rebucketed (strict : Prop) (l : HashLevel) (ranges : List BucketRange)
    (below : List Level) (node node' : Node (Children below)) : Prop where
  controller : ∃ brood, node'.controller =
    { node.controller with scheme := .hash ⟨l, brood, some ranges⟩ }
  buckets : ∀ key, key ∈ node'.controller.children.keys ↔ key.Within ranges ∧
    (key ∈ node.controller.children.keys ∨ l.Preallocates key)
  handles : ∀ m ∈ node.controller.children.entries, m.1.Within ranges →
    m ∈ node'.controller.children.entries
  survivors : ∀ e ∈ node.children.table.entries, e ∈ node'.children.table.entries ↔
    ∀ m ∈ node.controller.children.entries,
      m.2 = e.2.handle node.controller.id e.1 → m.1.Within ranges
  newcomers : ∀ e ∈ node'.children.table.entries, e ∉ node.children.table.entries →
    (e.2.key, e.2.handle node.controller.id e.1) ∈ node'.controller.children.entries
  live : strict → ∀ key, node'.children.Live key ↔ key.Within ranges ∧
    (node.children.Live key ∨ l.Preallocates key)
  same : strict → ∀ e ∈ node.children.table.entries, ∀ e' ∈ node'.children.table.entries,
    e'.2.key = e.2.key → e' = e

theorem Node.Rebucketed.id {strict : Prop} {node node' : Node (Children below)}
    (h : Rebucketed strict l ranges below node node') :
    node'.controller.id = node.controller.id := by
  obtain ⟨brood, heq⟩ := h.controller
  rw [heq]

namespace Setting

variable {env : Setting} {path : Path} {rest : List Number} {strict : Prop} {Q : Leaf → Prop}
  {post : Post} {node : Node (Children below)} {b : Books}

theorem rebucketed_of_tracked {c c' : HashController} {node' : Node (Children below)} {b' : Books}
    {each each' : UInt32 × Child below → Prop}
    (hnode : node.controller.scheme = .hash c)
    (hnode' : node'.controller = { node.controller with scheme := .hash c' })
    (hfamily : Family strict node.controller.id each c.children node.children.table)
    (hfamily' : Family strict node.controller.id each' c'.children node'.children.table)
    (hsound : (Scheme.hash c').Sound)
    (hrefilled : HashController.Refilled l ranges c.children l.Preallocates c')
    (htracked : env.Tracked node.controller.id rest c.children node.children b c'.children
      (node'.children, b')) : Node.Rebucketed strict l ranges below node node' := by
  have hchildren : node.controller.children = c.children := congrArg Scheme.children hnode
  have hchildren' : node'.controller.children = c'.children :=
    congrArg Controller.children hnode'
  have hinside {key : Key} (hkey : key ∈ c'.children.keys) : key.Within ranges :=
    Scheme.Sound.inside hsound hrefilled.told hkey
  have hbuckets (key : Key) : key ∈ c'.children.keys ↔
      key.Within ranges ∧ (key ∈ c.children.keys ∨ l.Preallocates key) := by
    constructor
    · exact fun hkey => ⟨hinside hkey, hrefilled.known key hkey⟩
    · rintro ⟨hin, hkey | hdue⟩
      · obtain ⟨h, hm⟩ := OrderedMap.mem_keys.1 hkey
        exact OrderedMap.mem_keys.2 ⟨h, hrefilled.kept _ hm hin⟩
      · exact hrefilled.filled key hdue hin
  have hsurvivors : ∀ e ∈ node.children.table.entries, e ∈ node'.children.table.entries ↔
      ∀ m ∈ c.children.entries, m.2 = e.2.handle node.controller.id e.1 → m.1.Within ranges := by
    intro e he
    rw [htracked.survivors e he]
    refine forall₃_congr fun m hm _ => ⟨fun hm' => ?_, hrefilled.kept m hm⟩
    exact hinside (List.mem_map_of_mem hm')
  have hlive (hs : strict) (key : Key) : node'.children.Live key ↔ key.Within ranges ∧
      (node.children.Live key ∨ l.Preallocates key) := by
    rw [Children.Live, Children.Live, ← hfamily'.mem_keys hs, ← hfamily.mem_keys hs, hbuckets]
  refine ⟨⟨c'.children, ?_⟩, ?_, ?_, ?_, ?_, hlive, ?_⟩
  · rw [hnode', ← hrefilled.level, ← hrefilled.told]
  · rw [hchildren, hchildren']
    exact hbuckets
  · rw [hchildren, hchildren']
    exact hrefilled.kept
  · rw [hchildren]
    exact hsurvivors
  · rw [hchildren']
    exact fun e he hout => (htracked.newcomers e he hout).1
  · intro hs e he e' he' hkey
    have hin : e.2.key.Within ranges := ((hlive hs _).1 ⟨e', he', hkey⟩).1
    have hstays : e ∈ node'.children.table.entries := by
      refine (hsurvivors e he).2 fun m hm hhandle => ?_
      rw [(hfamily.remembered_iff hs he hm).1 hhandle]
      exact hin
    exact hfamily'.key_inj hs he' hstays hkey

theorem restrict_rebucketed (hl : ∀ l ∈ below, l.flaw? = none)
    (hp : env.Policy 0 (fun _ _ _ => True) Q)
    (hs : Stands env.limit 0 strict post rest (Child.Sound Q strict below path post) (node, b))
    (hlevel : node.controller.level = .hash l)
    (hgiven : ∀ e ∈ node.children.table.entries, (e.2.handle node.controller.id e.1).Given b) :
    Ends (fun _ s => Node.Rebucketed strict l ranges below node s.1) (fun _ _ => True)
      (env.drive below path (fun life => Controller.restrict life ranges) (node, b)) := by
  obtain ⟨c, hscheme, hc⟩ := Scheme.eq_hash_of_level hlevel
  obtain rfl : node.controller.post = post := hs.manned.stands
  let life := env.lifecycle below path node.controller
  let tell := env.drive below path (fun life => Controller.restrict life ranges) (node, b)
  have hstands : Ends (fun _ => Stands env.limit 0 strict node.controller.post rest _)
      (fun _ => Stands env.limit 0 strict node.controller.post rest _) tell :=
    keeps_drive env hp hl
      (fun _ hlife => Controller.keeps_restrict hlife (fun _ _ => trivial) ranges) (node, b) hs
  have htracked : Ends (fun _ s => env.Tracked node.controller.id rest c.children node.children b
      s.1.controller.children (s.1.children, s.2)) (fun _ _ => True) tell := by
    have hhonours : life.Honours (fun _ => True)
        (env.Tracked node.controller.id rest c.children node.children b) :=
      honours_tracked hl hgiven
    have hkeeps : Keeps (fun p => Controller.Manned node.controller.post
        (env.Tracked node.controller.id rest c.children node.children b) p.1 p.2)
        (Controller.restrict life ranges) :=
      Controller.keeps_restrict hhonours (fun _ _ => trivial) ranges
    have hready : env.Tracked node.controller.id rest c.children node.children b
        node.controller.scheme.children (node.children, b) := by
      rw [hscheme]
      exact tracked_refl hs.accounts
    exact drive_ends ((hkeeps (node.controller, (node.children, b))
      ⟨rfl, rfl, hs.manned.tended.sound, hready⟩).imp (fun _ _ hp => hp.tended.holds)
        fun _ _ _ => trivial)
  have hrefilled : Ends (fun _ s => ∃ c' : HashController,
      s.1.controller = { node.controller with scheme := .hash c' } ∧
        HashController.Refilled l ranges c.children l.Preallocates c') (fun _ _ => True) tell := by
    refine drive_ends (Controller.run_ends ?_)
    rw [hscheme]
    refine (Scheme.refilled_restrict hc).imp ?_ fun _ _ h => h
    rintro _ p ⟨c', hp', hrefilled⟩
    exact ⟨c', by rw [hp'], hrefilled⟩
  refine ((hstands.and htracked).and hrefilled).imp ?_ fun _ _ _ => trivial
  rintro _ ⟨⟨controller, children⟩, b'⟩ ⟨⟨hstands', htracked'⟩, c', rfl, hrefilled'⟩
  have hfamily := hs.manned.tended.holds
  rw [hscheme] at hfamily
  exact rebucketed_of_tracked hscheme rfl hfamily hstands'.manned.tended.holds
    hstands'.manned.tended.sound hrefilled' htracked'

end Setting

namespace Context

variable {c c' : Context} {runtime : Runtime} {level : Nat} {strict : Prop} {id : ControllerId}
  {allowed : Operation → Prop}

theorem Sound.nodup_idsAt (hc : c.Sound strict) : (c.idsAt level).Nodup := by
  rw [idsAt]
  split
  · next root hroot =>
      have hnodup := (hc.tree root hroot).nodup_ids hroot
      rw [entries_of_root hroot] at hnodup
      exact hnodup.sublist Node.controllersAt_sublist
  · exact List.nodup_nil

theorem Sound.rebucketed_at (hc : c.Sound strict) {root root' : Node (Children c.declaration.inner)}
    (hroot : c.root = some root) (hlevel : c.declaration.levels[level - 1]? = some (.hash l))
    {deep : List Level} {way : Path} {n n' : Node (Children deep)}
    (hgraft : Node.Graft n n' way c.declaration.inner [] root root')
    (hid : n.controller.id ∈ c.idsAt level) :
    Ends (fun _ s => Node.Rebucketed strict l ranges deep n s.1) (fun _ _ => True)
      ((c.setting runtime).drive deep way (fun life => Controller.restrict life ranges)
        (n, c.books)) := by
  have hup := hc.tree root hroot
  obtain ⟨x, hx, hxid, hdepth⟩ := entry_of_idsAt hid
  obtain ⟨parent, place, depth, hentry⟩ := hgraft.entry_mem none 0 1
  rw [← entries_of_root hroot] at hentry
  obtain rfl : x = n.entry deep parent place depth :=
    hup.eq_of_id hroot hx hentry (hxid.trans Node.id_entry.symm)
  have hkind : n.controller.level = .hash l := by
    obtain ⟨i, hi, hdeclared⟩ := (hup.posted hroot hx).declared
    obtain rfl : i = level - 1 := by omega
    rw [Node.controller_entry] at hdeclared
    exact Option.some.inj (hdeclared.symm.trans hlevel)
  have hgiven : ∀ e ∈ n.children.table.entries, (e.2.handle n.controller.id e.1).Given c.books :=
    fun e he => hc.given ⟨_, hx, Node.mem_handles_entry.2 ⟨e, he, rfl⟩⟩
  have hflaws : ∀ m ∈ deep, m.flaw? = none := fun m hm =>
    c.declaration.sound m (List.mem_cons_of_mem _ (hgraft.suffix.subset hm))
  obtain ⟨rootId, hstands⟩ := hup
  obtain ⟨post, rest, hstands⟩ := hgraft.stands hstands
  exact Setting.restrict_rebucketed hflaws Setting.staffed_policy hstands hkind hgiven

theorem Sound.layered_one (hc : c.Sound strict) {root : Node (Children c.declaration.inner)}
    (hroot : c.root = some root) (hid : id ∈ c.idsAt level)
    (hlevel : c.declaration.levels[level - 1]? = some (.hash l)) :
    Ends (fun _ c' => ∃ root' books, c' = { c with root := some root', books } ∧
        Node.Layered (Node.Among [id] (Node.Rebucketed strict l ranges)) c.declaration.inner
          (level - 1) root root')
      (fun _ _ => True) (restrictEach runtime ranges [id] c) := by
  let env := c.setting runtime
  let f (below : List Level) (path : Path) : Act (Node (Children below) × Books) Unit :=
    env.drive below path fun life => Controller.restrict life ranges
  rw [restrictEach_one]
  rcases c.atController_cases id f (.ok (), c) with ⟨-, hne⟩ | ⟨root₀, root', deep, way, n, hroot',
    rfl, hgraft, heq⟩
  · obtain ⟨x, hx, hxid, -⟩ := entry_of_idsAt hid
    exact absurd hxid (hne x hx)
  · obtain rfl : root = root₀ := Option.some.inj (hroot.symm.trans hroot')
    have hdone : Ends (fun _ s => Node.Rebucketed strict l ranges deep n s.1) (fun _ _ => True)
        (f deep way (n, c.books)) := hc.rebucketed_at hroot hlevel hgraft hid
    have hat : n.controller.id ∈
        (root.controllersAt c.declaration.inner (level - 1)).map Controller.id := by
      rw [idsAt, hroot] at hid
      exact hid
    have hnodup := (hc.tree root hroot).nodup_ids hroot
    rw [entries_of_root hroot] at hnodup
    rw [heq]
    rcases hran : f deep way (n, c.books) with ⟨_ | _, n', books⟩
    · trivial
    · rw [hran] at hdone hgraft
      exact ⟨root', books, rfl, hgraft.layered none 0 1 hnodup hat hdone⟩

theorem Sound.layered_each (hc : c.Sound strict) {root : Node (Children c.declaration.inner)}
    (hroot : c.root = some root) (hlevel : c.declaration.levels[level - 1]? = some (.hash l))
    {todo : List ControllerId} (hnodup : todo.Nodup) (htodo : ∀ id ∈ todo, id ∈ c.idsAt level) :
    Ends (fun _ c' => ∃ root' books, c' = { c with root := some root', books } ∧
        Node.Layered (Node.Among todo (Node.Rebucketed strict l ranges)) c.declaration.inner
          (level - 1) root root')
      (fun _ _ => True) (restrictEach runtime ranges todo c) := by
  induction todo generalizing c root with
  | nil => exact ⟨root, c.books, by rw [← hroot], Node.layered_self (by simp)⟩
  | cons id rest ih =>
      obtain ⟨hnew, hnodup⟩ := List.nodup_cons.1 hnodup
      obtain ⟨hid, hrest⟩ := List.forall_mem_cons.1 htodo
      have hsame {below : List Level} {n n' : Node (Children below)}
          (h : n.Rebucketed strict l ranges below n') : n'.controller.id = n.controller.id := h.id
      let Told (c' : Context) : Prop := c'.Sound strict ∧ ∃ root' books,
        c' = { c with root := some root', books } ∧
          Node.Layered (Node.Among [id] (Node.Rebucketed strict l ranges)) c.declaration.inner
            (level - 1) root root'
      let Done (c' : Context) : Prop := ∃ root' books, c' = { c with root := some root', books } ∧
        Node.Layered (Node.Among (id :: rest) (Node.Rebucketed strict l ranges))
          c.declaration.inner (level - 1) root root'
      have hfirst : Ends (fun _ => Told) (fun _ _ => True)
          (restrictEach runtime ranges [id] c) := by
        have hsound : Ends (fun _ => Sound strict) (fun _ => Sound strict)
            (restrictEach runtime ranges [id] c) :=
          keeps_driveEach (fun hlife => Controller.keeps_restrict hlife (fun _ _ => trivial) ranges)
            c hc
        exact (hsound.and (hc.layered_one hroot hid hlevel)).imp (fun _ _ h => h)
          fun _ _ _ => trivial
      have hothers : Triple Told (restrictEach runtime ranges rest) (fun _ => Done)
          fun _ _ => True := by
        rintro _ ⟨hsound, root₁, books, rfl, hlayered⟩
        have hids : ({ c with root := some root₁, books } : Context).idsAt level =
            c.idsAt level := by
          rw [idsAt, idsAt, hroot]
          exact hlayered.ids fun _ _ _ h => h.ids hsame
        have hrest' := fun id hmem => hids ▸ hrest id hmem
        refine (ih hsound rfl hlevel hnodup hrest').imp ?_ fun _ _ h => h
        rintro _ _ ⟨root', books', rfl, hlayered'⟩
        refine ⟨root', books', rfl, (hlayered.trans hlayered').mono ?_⟩
        rintro below n n' - ⟨m, hm, hm'⟩
        exact hm.cons hm' hnew hsame
      rw [restrictEach, driveEach] at hfirst hothers ⊢
      refine (Triple.bind (P := fun s => s = c) ?_ fun _ => hothers) c rfl
      rintro _ rfl
      exact hfirst.congr forEach_singleton

/-- What a call that sets ranges for a level of buckets does, when it comes through. It changes the
nodes of that level, and nothing of the tree above. At each node the controller holds the buckets in
range that it held, and all that it starts by itself; those stay as they were, and of the others
those have ended that it held. Where callers have started none, these are all that live. -/
theorem restrict_rebuckets (h : Reachable allowed c)
    (hregular : strict → ∀ op, allowed op → op.Regular)
    (hlevel : c.declaration.levels[level - 1]? = some (.hash l))
    (hok : restrict runtime level ranges c = (.ok (), c')) :
    (c.root = none → c' = c) ∧ ∀ root ∈ c.root, ∃ root' books,
      c' = { c with root := some root', books } ∧
        Node.Layered (Node.Rebucketed strict l ranges) c.declaration.inner (level - 1) root
          root' := by
  have hc : c.Sound strict := h.sound hregular
  rw [restrict] at hok
  split at hok
  · cases hok
  · refine ⟨fun hnone => ?_, fun root hroot => ?_⟩
    · rw [hnone] at hok
      exact (Prod.mk.inj hok).2.symm
    · have hall : Ends _ _ (restrictEach runtime ranges (c.idsAt level) c) :=
        hc.layered_each hroot hlevel hc.nodup_idsAt fun _ hid => hid
      obtain ⟨root', books, heq, hlayered⟩ := hall.congr hok
      refine ⟨root', books, heq, hlayered.mono fun below n n' hid hn => ?_⟩
      rw [idsAt, Option.mem_def.1 hroot] at hn
      exact (if_pos hid).mp hn

def shelf : HashLevel :=
  { name := "shelf", eventType := "Page", property := "item", granularity := 4
    preallocate := true }

def shelves : Declaration :=
  { name := "shelves"
    outer := .keyed { name := "user", items := [⟨"Page", ["user"]⟩] }
    inner := [.hash shelf]
    sound := by decide
    distinct := by decide }

def shelved : Context :=
  (perform .collecting (.restrict 2 [⟨0, 1⟩, ⟨3, 9⟩])
    (perform .collecting (.process page)
      (perform .collecting (.attach seen) (Context.new shelves)).2).2).2

def reshelved : Context := (restrict .collecting 2 [⟨0, 3⟩] shelved).2

theorem reshelved_rebuckets :
    ∃ c c' : Context, restrict .collecting 2 [⟨0, 3⟩] c = (.ok (), c') ∧
      (∃ x ∈ c.entries, x.level = 2 ∧ x.handles =
        [(.hash 0, .leaf ⟨1⟩ 0 0), (.hash 3, .leaf ⟨1⟩ 3 3)]) ∧
      (∃ x ∈ c'.entries, x.level = 2 ∧ x.handles =
        [(.hash 0, .leaf ⟨1⟩ 0 0), (.hash 1, .leaf ⟨1⟩ 4 4), (.hash 2, .leaf ⟨1⟩ 5 5)]) ∧
      ∀ root ∈ c.root, ∃ root' books, c' = { c with root := some root', books } ∧
        Node.Layered (Node.Rebucketed True shelf [⟨0, 3⟩]) c.declaration.inner (2 - 1) root
          root' := by
  have hreach : Reachable Operation.Regular shelved :=
    .step _ _ (.step _ _ (.step _ _ (.new ..) trivial) trivial) trivial
  have hlevel : shelved.declaration.levels[2 - 1]? = some (.hash shelf) := by decide +kernel
  have hok : restrict .collecting 2 [⟨0, 3⟩] shelved = (.ok (), reshelved) := by
    have hresult : (restrict .collecting 2 [⟨0, 3⟩] shelved).1 = .ok () := by decide +kernel
    rw [reshelved, ← hresult]
  exact ⟨shelved, reshelved, hok, by decide +kernel, by decide +kernel,
    (restrict_rebuckets hreach (fun _ _ hop => hop) hlevel hok).2⟩

def slots : Declaration :=
  { name := "slots"
    outer := .hash { name := "slot", eventType := "Page", property := "item", granularity := 4 }
    inner := []
    sound := by decide
    distinct := by decide }

def slotted : Context :=
  (perform .collecting (.instantiate ⟨0⟩ { path := 3, key := .hash 3 })
    (perform .collecting (.attach seen) (Context.new slots)).2).2

/-- A bucket that a caller has started is not known to the controller, and stays. -/
theorem slotted_not_narrowed :
    ¬ ∀ (c c' : Context) (runtime : Runtime) (level : Nat) (ranges : List BucketRange)
      (l : HashLevel), Reachable (fun _ => True) c → runtime.Unfailing →
        c.declaration.levels[level - 1]? = some (.hash l) →
        restrict runtime level ranges c = (.ok (), c') →
        ∀ x ∈ c.entries, x.level = level → ∀ x' ∈ c'.entries, x'.id = x.id → ∀ key,
          key ∈ x'.handles.map Prod.fst ↔ key.Within ranges ∧
            (key ∈ x.handles.map Prod.fst ∨ l.Preallocates key) := by
  intro h
  have hreach : Reachable (fun _ => True) slotted :=
    .step _ _ (.step _ _ (.new ..) trivial) trivial
  have hok : (restrict .collecting 1 [⟨0, 1⟩] slotted).1 = .ok () := by decide +kernel
  obtain ⟨x, hx, hlevel, x', hx', hid, hlive⟩ : ∃ x ∈ slotted.entries, x.level = 1 ∧
      ∃ x' ∈ (restrict .collecting 1 [⟨0, 1⟩] slotted).2.entries, x'.id = x.id ∧
        .hash 3 ∈ x'.handles.map Prod.fst := by decide +kernel
  obtain ⟨⟨bucket, hkey, r, hr, hcontains⟩, -⟩ :=
    (h slotted _ .collecting 1 [⟨0, 1⟩] _ hreach Runtime.unfailing_collecting rfl
      (Prod.ext hok rfl) x hx hlevel x' hx' hid (.hash 3)).1 hlive
  obtain rfl := Key.hash.inj hkey
  obtain rfl := List.mem_singleton.1 hr
  exact absurd hcontains (by decide)

end Context

end EventContexts
