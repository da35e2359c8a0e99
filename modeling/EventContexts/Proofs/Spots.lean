import EventContexts.Proofs.Routing

namespace EventContexts

open Act

namespace Level

def keyFor? (e : Event) : Level → Option Key
  | .keyed l => l.keyFor? e
  | _ => none

def keyPath? (levels : List Level) (e : Event) : Option (List Key) := levels.mapM (keyFor? e)

def Keyed (l : Level) : Prop := ∃ kl, l = .keyed kl

variable {l : Level} {levels : List Level} {e : Event} {key : Key}

theorem keyPath?_cons : keyPath? (l :: levels) e =
    (l.keyFor? e).bind fun key => (keyPath? levels e).map (key :: ·) := by
  rw [keyPath?, List.mapM_cons, keyPath?]
  cases l.keyFor? e with
  | none => rfl
  | some key => cases levels.mapM (keyFor? e) <;> rfl

theorem Keyed.routes_iff (h : l.Keyed) : l.Routes e key ↔ l.keyFor? e = some key := by
  obtain ⟨kl, rfl⟩ := h
  exact Iff.rfl

theorem routes_iff_keyPath? {path : Path} (h : ∀ step ∈ path, step.level.Keyed) :
    Path.Routes path e ↔ keyPath? (path.map Step.level) e = some path.keys := by
  induction path with
  | nil => simp [Path.Routes, keyPath?, Path.keys]
  | cons step path ih =>
      obtain ⟨hstep, hpath⟩ := List.forall_mem_cons.1 h
      have hcons : Path.Routes (step :: path) e ↔
          step.level.Routes e step.key ∧ Path.Routes path e := List.forall_mem_cons
      have hkeys : Path.keys (step :: path) = step.key :: Path.keys path := rfl
      rw [hcons, hstep.routes_iff, ih hpath, List.map_cons, keyPath?_cons, hkeys,
        Option.bind_eq_some_iff]
      constructor
      · rintro ⟨hkey, hrest⟩
        exact ⟨step.key, hkey, Option.map_eq_some_iff.2 ⟨_, hrest, rfl⟩⟩
      · rintro ⟨key, hkey, hmap⟩
        obtain ⟨keys, hrest, heq⟩ := Option.map_eq_some_iff.1 hmap
        obtain ⟨rfl, rfl⟩ := List.cons.inj heq
        exact ⟨hkey, hrest⟩

end Level

structure Spot where
  partition : UInt32
  generation : Nat
  keys : List Key

def Spot.under (key : Key) (s : Spot) : Spot := { s with keys := key :: s.keys }

def Leaf.spot (ℓ : Leaf) : Spot := ⟨ℓ.partition, ℓ.running.generation, ℓ.path.keys⟩

def Children.spots : {below : List Level} → Children below → List Spot
  | [], partitions =>
      let partitions : Table Running := partitions
      partitions.entries.flatMap fun (p, r) => [⟨p, r.generation, [r.key]⟩]
  | _ :: below, branches =>
      let branches : Table (Branch (Children below)) := branches
      branches.entries.flatMap fun (_, b) => (spots b.node.children).map (Spot.under b.key)

def Child.spots : {below : List Level} → UInt32 × Child below → List Spot
  | [], (p, r) => [⟨p, Running.generation r, [Running.key r]⟩]
  | _ :: _, (_, b) => (Branch.node b).children.spots.map (Spot.under (Branch.key b))

variable {below : List Level} {m m' : Nat}

namespace Children

variable {children children' : Children below} {k : UInt32} {a : Child below}

theorem spots_eq (children : Children below) :
    children.spots = children.table.entries.flatMap Child.spots := by
  cases below <;> rfl

@[simp] theorem spots_empty : (Children.empty below).spots = [] := by
  cases below <;> rfl

theorem spots_of_mem (others : Children below) (h : others.table = children.table.erase k)
    (hmem : (k, a) ∈ children.table.entries) :
    children.spots.Perm (Child.spots (k, a) ++ others.spots) := by
  rw [spots_eq, spots_eq, h]
  exact (Table.perm_of_get? (Table.get?_eq_some.2 hmem)).flatMap_right _

theorem spots_of_put (others : Children below) (h : children'.table = children.table.insert k a)
    (hothers : others.table = children.table.erase k) :
    children'.spots.Perm (Child.spots (k, a) ++ others.spots) := by
  rw [spots_eq, spots_eq, h, hothers]
  exact (children.table.insert_perm k a).flatMap_right _

theorem spots_of_new (h : children'.table = children.table.insert k a)
    (hk : k ∉ children.table.keys) :
    children'.spots.Perm (Child.spots (k, a) ++ children.spots) := by
  rw [spots_eq, spots_eq, h]
  exact (Table.insert_perm_of_new hk).flatMap_right _

end Children

theorem Child.head_spots {x : UInt32 × Child below} {s : Spot} (h : s ∈ Child.spots x) :
    s.keys.head? = some x.2.key := by
  cases below with
  | nil =>
      obtain rfl := List.mem_singleton.1 h
      rfl
  | cons l below =>
      obtain ⟨t, -, rfl⟩ := List.mem_map.1 h
      rfl

theorem Node.map_spot_leaves (node : Node (Children below)) (path : Path) :
    (node.leaves below path).map Leaf.spot =
      node.children.spots.map fun s => { s with keys := path.keys ++ s.keys } := by
  induction below generalizing path with
  | nil =>
      rw [Children.spots, Node.leaves, List.map_map, List.map_flatMap, List.map_eq_flatMap]
      refine List.flatMap_congr fun x _ => ?_
      simp [Leaf.spot, Path.keys, Node.step]
  | cons l below ih =>
      rw [Children.spots, Node.leaves, List.map_flatMap, List.map_flatMap]
      refine List.flatMap_congr fun x _ => ?_
      rw [ih, List.map_map]
      refine List.map_congr_left fun s _ => ?_
      simp [Spot.under, Path.keys, Node.step]

/-- What an event does to the partitions: its keys have a partition already, or there are none, and
nothing changes; or they get a new one with the next number. -/
inductive Regrouped (keys? : Option (List Key)) (m : Nat) (before : List Spot) :
    Nat → List Spot → Prop where
  | same {after : List Spot} : after.Perm before →
      (∀ keys ∈ keys?, keys ∈ before.map Spot.keys) → Regrouped keys? m before m after
  | new {after : List Spot} {keys : List Key} {generation : Nat} : keys? = some keys →
      keys ∉ before.map Spot.keys →
      after.Perm (⟨UInt32.ofNat m, generation, keys⟩ :: before) →
      Regrouped keys? m before (m + 1) after

namespace Regrouped

variable {keys? : Option (List Key)} {before before' after after' others : List Spot} {key : Key}

theorem perm (h : Regrouped keys? m before m' after) (hbefore : before.Perm before')
    (hafter : after.Perm after') : Regrouped keys? m before' m' after' := by
  cases h with
  | same hsame hkeys =>
      refine .same (hafter.symm.trans (hsame.trans hbefore)) fun keys hmem => ?_
      exact (hbefore.map _).mem_iff.1 (hkeys keys hmem)
  | new hkeys hnew hperm =>
      exact .new hkeys (fun hmem => hnew ((hbefore.map _).mem_iff.2 hmem))
        (hafter.symm.trans (hperm.trans (hbefore.cons _)))

theorem under (h : Regrouped keys? m before m' after) (key : Key) :
    Regrouped (keys?.map (key :: ·)) m (before.map (Spot.under key)) m'
      (after.map (Spot.under key)) := by
  cases h with
  | same hsame hkeys =>
      refine .same (hsame.map _) fun keys hmem => ?_
      obtain ⟨keys', hkeys', rfl⟩ := Option.map_eq_some_iff.1 hmem
      obtain ⟨s, hs, rfl⟩ := List.mem_map.1 (hkeys keys' hkeys')
      exact List.mem_map.2 ⟨s.under key, List.mem_map_of_mem hs, rfl⟩
  | @new _ keys generation hkeys hnew hperm =>
      have hkeys' : keys?.map (key :: ·) = some (key :: keys) := by rw [hkeys]; rfl
      have hperm' : (after.map (Spot.under key)).Perm
          (⟨UInt32.ofNat m, generation, key :: keys⟩ :: before.map (Spot.under key)) :=
        hperm.map _
      refine .new hkeys' (fun hmem => ?_) hperm'
      obtain ⟨s, hs, heq⟩ := List.mem_map.1 hmem
      obtain ⟨t, ht, rfl⟩ := List.mem_map.1 hs
      exact hnew (List.mem_map.2 ⟨t, ht, (List.cons.inj heq).2⟩)

theorem beside (h : Regrouped (keys?.map (key :: ·)) m before m' after)
    (hothers : ∀ s ∈ others, s.keys.head? ≠ some key) :
    Regrouped (keys?.map (key :: ·)) m (before ++ others) m' (after ++ others) := by
  cases h with
  | same hsame hkeys =>
      refine .same (hsame.append_right _) fun keys hmem => ?_
      rw [List.map_append]
      exact List.mem_append_left _ (hkeys keys hmem)
  | new hkeys hnew hperm =>
      refine .new hkeys (fun hmem => ?_) (hperm.append_right _)
      rw [List.map_append] at hmem
      refine (List.mem_append.1 hmem).elim hnew fun hmem => ?_
      obtain ⟨s, hs, heq⟩ := List.mem_map.1 hmem
      obtain ⟨keys', -, rfl⟩ := Option.map_eq_some_iff.1 hkeys
      exact hothers s hs (by rw [heq]; rfl)

end Regrouped

/-- `m` identifiers were handed out, and none came back. -/
structure PartitionIds.Pristine (p : PartitionIds) (m : Nat) : Prop where
  next : p.next = UInt32.ofNat m
  released : p.released = []
  mem_ids : ∀ id, id ∈ p.ids ↔ id.toNat < m
  count : p.count = m

namespace PartitionIds

variable {p : PartitionIds}

theorem pristine_new {reuse : Bool} : (new reuse).Pristine 0 := by
  refine ⟨rfl, rfl, fun id => ?_, rfl⟩
  simp [new, ids, IdSet.toList, Table.keys, Table.empty]

theorem Pristine.not_mem_ids (h : p.Pristine m) (hm : m < UInt32.size) :
    UInt32.ofNat m ∉ p.ids := by
  intro hmem
  have hlt := (h.mem_ids _).1 hmem
  rw [UInt32.toNat_ofNat_of_lt' hm] at hlt
  exact Nat.lt_irrefl _ hlt

theorem Pristine.allocate (h : p.Pristine m) (hm : m < UInt32.size) :
    p.allocate.1 = UInt32.ofNat m ∧ p.allocate.2.Pristine (m + 1) := by
  have hnew := h.not_mem_ids hm
  have hnone : (if p.reuse then skipTaken p.inUse p.released else []) = [] := by
    rw [h.released]
    split <;> rfl
  have hfree : firstFree p.inUse p.inUse.size p.next = UInt32.ofNat m := by
    rw [h.next]
    cases p.inUse.size with
    | zero => rfl
    | succ fuel => rw [firstFree, if_neg fun hc => hnew (Table.contains_iff.1 hc)]
  have hperm : (p.inUse.add (UInt32.ofNat m)).keys.Perm (UInt32.ofNat m :: p.inUse.keys) :=
    ids_add_perm hnew
  have hallocate : p.allocate = (UInt32.ofNat m, { p with
      next := UInt32.ofNat m + 1, inUse := p.inUse.add (UInt32.ofNat m)
      released := if p.reuse then [] else p.released }) := by
    rw [PartitionIds.allocate, hnone, hfree]
  rw [hallocate]
  refine ⟨rfl, ?_, ?_, fun id => ?_, ?_⟩
  · exact (UInt32.ofNat_add m 1).symm
  · simp [h.released]
  · have hmem : id ∈ (p.inUse.add (UInt32.ofNat m)).keys ↔
        id ∈ UInt32.ofNat m :: p.inUse.keys := hperm.mem_iff
    have hids : id ∈ p.inUse.keys ↔ id.toNat < m := h.mem_ids id
    simp only [ids, IdSet.toList, hmem, List.mem_cons, hids, Nat.lt_succ_iff_lt_or_eq, or_comm]
    refine or_congr_left ?_
    rw [← UInt32.toNat_inj, UInt32.toNat_ofNat_of_lt' hm]
  · have hcount : p.inUse.keys.length = m := p.length_ids.trans h.count
    rw [← length_ids]
    exact hperm.length_eq.trans (congrArg (· + 1) hcount)

end PartitionIds

end EventContexts
