import EventContexts.Proofs.Reseating
import EventContexts.Proofs.Startup
import EventContexts.Proofs.Visits
import EventContexts.Proofs.Walks

namespace EventContexts

open Act

namespace Assignment

def ways : List Level → Assignment → List (UInt32 × List Key)
  | [], x => x.partition.toList.map fun p => (p, [x.key])
  | _ :: below, x => (x.children.flatMap (ways below)).map fun way => (way.1, x.key :: way.2)

def partitions (below : List Level) (x : Assignment) : List UInt32 := (x.ways below).map Prod.fst

theorem partitions_leaf (x : Assignment) : x.partitions [] = x.partition.toList := by
  simp [partitions, ways, Function.comp_def]

theorem partitions_branch {l : Level} {below : List Level} (x : Assignment) :
    x.partitions (l :: below) = x.children.flatMap (partitions below) := by
  rw [partitions, ways, List.map_map, List.map_flatMap]
  rfl

/-- Assignments from which everything under a node with a controller of the level comes back: of
partitions with their identifiers in order, and of branches in the order of their places. -/
def Regrow (now : Int64) : List Level → Level → List Assignment → Prop
  | [], l, xs => l.Whole now xs ∧ ∃ ps : List UInt32, ps.Pairwise (· < ·) ∧
      List.Forall₂ (fun p x => x.partition = some p ∧ x.children = []) ps xs
  | m :: below, l, xs => l.Whole now xs ∧ ∃ ps : List UInt32, ps.Pairwise (· < ·) ∧
      List.Forall₂ (fun p x => l.Places x.key p ∧ x.partition = none ∧
        Regrow now below m x.children) ps xs

end Assignment

def Child.assignment : {below : List Level} → UInt32 × Child below → Assignment
  | [], (p, r) => { key := Running.key r, partition := some p }
  | _ :: below, (_, b) =>
      { key := Branch.key b, children := (Branch.node b).assignments below }

def Request.seat : List Level → Request → UInt32
  | [], r => r.assigned.getD 0
  | _ :: _, r => r.path

def Request.Fits (now : Int64) : List Level → Request → Prop
  | [], r => ∃ p, r.assigned = some p ∧ r.recovered.getD [] = []
  | m :: below, r => r.assigned = none ∧ Assignment.Regrow now below m (r.recovered.getD [])

structure Request.Recreates (now : Int64) (below : List Level) (l : Level) (r : Request) : Prop
    where
  trigger : r.trigger = none
  recovered : l.kind ≠ .temporal → r.recovered.isSome = true
  fits : r.Fits now below

variable {below : List Level} {l : Level} {now : Int64} {xs : List Assignment} {r : Request}
  {rs : List Request} {marked : Prop} {b b' b₀ : Books} {ps qs : List UInt32} {limit : Option Nat}

theorem Node.assignments_eq (node : Node (Children below)) :
    node.assignments below = node.children.table.entries.map Child.assignment := by
  cases below <;> rfl

theorem Level.Whole.replay_partitions (h : l.Whole now xs) :
    ((l.replay now xs).flatMap fun r => r.assignment.partitions below).Perm
      (xs.flatMap (Assignment.partitions below)) := by
  have hperm := h.replay_assignments.flatMap_right (Assignment.partitions below)
  rwa [List.flatMap_map] at hperm

namespace Assignment.Regrow

theorem whole (h : Regrow now below l xs) : l.Whole now xs := by
  cases below with
  | nil => exact h.1
  | cons m below => exact h.1

theorem fits (h : Regrow now below l xs) (hr : r.assignment ∈ xs) : r.Fits now below := by
  cases below with
  | nil =>
      obtain ⟨-, ps, -, hps⟩ := h
      exact List.Forall₂.forall_right (P := fun x => ∃ p, x.partition = some p ∧ x.children = [])
        (hps.imp fun p _ hx => ⟨p, hx⟩) _ hr
  | cons m below =>
      obtain ⟨-, ps, -, hps⟩ := h
      exact List.Forall₂.forall_right (hps.imp fun p x hx => hx.2) _ hr

theorem recreates (h : Regrow now below l xs) (hr : r ∈ l.replay now xs) :
    r.Recreates now below l := by
  have hmem : r.assignment ∈ xs :=
    h.whole.replay_assignments.mem_iff.1 (List.mem_map_of_mem hr)
  have hreplayed := h.whole.toNamed.replayed hr
  exact ⟨hreplayed.trigger,
    fun hkind => hreplayed.recovered hkind (List.mem_map_of_mem hmem), h.fits hmem⟩

theorem seated (h : Regrow now below l xs) (hl : l.flaw? = none) :
    ∃ ys : List (UInt32 × Assignment), (ys.map Prod.fst).Pairwise (· < ·) ∧ ys.map Prod.snd = xs ∧
      ys.Perm ((l.replay now xs).map fun r => (r.seat below, r.assignment)) := by
  cases below with
  | nil =>
      have hreplay : ∀ y ∈ (l.replay now xs).map fun r => (r.seat [], r.assignment),
          y.2.partition = some y.1 := by
        intro y hy
        obtain ⟨r, hr, rfl⟩ := List.mem_map.1 hy
        obtain ⟨p, hp, -⟩ := (h.recreates hr).fits
        simp [Request.assignment, Request.seat, hp]
      obtain ⟨hwhole, ps, hascending, hps⟩ := h
      have hnumbers : List.Forall₂ (fun p (x : Assignment) => x.partition = some p) ps xs :=
        hps.imp fun p x hx => hx.1
      obtain ⟨zs, hfst, hsnd, hperm⟩ := hnumbers.exists_zip
        (fun p q x hp hq => Option.some.inj (hp.symm.trans hq)) hwhole.distinct.of_map hreplay
        (by rw [List.map_map]; exact hwhole.replay_assignments)
      exact ⟨zs, hfst ▸ hascending, hsnd, hperm⟩
  | cons m below =>
      obtain ⟨hwhole, ps, hascending, hps⟩ := h
      exact hwhole.seated hl hascending (hps.imp fun p x hx => hx.1)

end Assignment.Regrow

structure Books.Free (limit : Option Nat) (ps : List UInt32) (b : Books) : Prop where
  distinct : (b.ids.ids ++ ps).Nodup
  room : ∀ n ∈ limit, (b.ids.ids ++ ps).length ≤ n

theorem Books.Free.mono (h : b.Free limit ps)
    (hsub : (b'.ids.ids ++ qs).Subperm (b.ids.ids ++ ps)) : b'.Free limit qs :=
  ⟨hsub.nodup h.distinct, fun n hn => Nat.le_trans hsub.length_le (h.room n hn)⟩

structure Children.Replanted (marked : Prop) (rs : List Request) (b₀ : Books)
    (s : Children below × Books) : Prop where
  table : (s.1.table.entries.map fun e => (e.1, Child.assignment e)).Perm
    (rs.map fun r => (r.seat below, r.assignment))
  ids : s.2.ids.ids.Perm (b₀.ids.ids ++ rs.flatMap fun r => r.assignment.partitions below)
  started : marked → ∃ qs, s.2.trace.started = b₀.trace.started ++ qs ∧
    ∀ q ∈ qs, q.recovering = true

namespace Children.Replanted

variable {children : Children below} {s : Children below × Books}

theorem empty (h : b.ids = b₀.ids) (htrace : b.trace = b₀.trace) :
    Replanted marked [] b₀ (Children.empty below, b) := by
  refine ⟨?_, ?_, fun _ => ⟨[], ?_, by simp⟩⟩
  · rw [Children.entries_empty]
    exact .refl _
  · rw [h, List.flatMap_nil, List.append_nil]
  · rw [htrace, List.append_nil]

theorem keys (h : Replanted marked rs b₀ s) :
    s.1.table.keys.Perm (rs.map (Request.seat below)) := by
  have hkeys := h.table.map Prod.fst
  rwa [List.map_map, List.map_map] at hkeys

theorem concat (h : Replanted marked rs b₀ (children, b)) {children' : Children below}
    {a : Child below} (htable : children'.table = children.table.insert (r.seat below) a)
    (hseat : r.seat below ∉ rs.map (Request.seat below))
    (ha : Child.assignment (r.seat below, a) = r.assignment)
    (hids : b'.ids.ids.Perm (b.ids.ids ++ r.assignment.partitions below))
    (hstarted : marked → ∃ qs, b'.trace.started = b.trace.started ++ qs ∧
      ∀ q ∈ qs, q.recovering = true) :
    Replanted marked (rs ++ [r]) b₀ (children', b') where
  table := by
    have hnew : r.seat below ∉ children.table.keys := fun hmem => hseat (h.keys.mem_iff.1 hmem)
    rw [htable, List.map_append]
    have hperm := (Table.insert_perm_of_new (a := a) hnew).map fun e => (e.1, Child.assignment e)
    refine hperm.trans ?_
    rw [List.map_cons, ha]
    exact (h.table.cons _).trans (List.perm_append_singleton _ _).symm
  ids := by
    rw [List.flatMap_append, ← List.append_assoc]
    refine hids.trans ?_
    simpa using h.ids.append_right _
  started hmarked := by
    obtain ⟨qs, hqs, hold⟩ := h.started hmarked
    obtain ⟨qs', hqs', hnew⟩ := hstarted hmarked
    refine ⟨qs ++ qs', ?_, fun q hq => (List.mem_append.1 hq).elim (hold q) (hnew q)⟩
    rw [hqs', hqs, List.append_assoc]

theorem free (h : Replanted marked rs b₀ s)
    (hfree : b₀.Free limit ((rs ++ [r]).flatMap fun r => r.assignment.partitions below)) :
    s.2.Free limit (r.assignment.partitions below) := by
  refine hfree.mono (List.Perm.subperm ?_)
  rw [List.flatMap_append, ← List.append_assoc, List.flatMap_singleton]
  exact h.ids.append_right _

theorem assignments (h : Replanted marked (l.replay now xs) b₀ s)
    (hregrow : Assignment.Regrow now below l xs) (hl : l.flaw? = none) :
    s.1.table.entries.map Child.assignment = xs := by
  obtain ⟨ys, hascending, rfl, hys⟩ := hregrow.seated hl
  have hseats : (s.1.table.entries.map fun e => (e.1, Child.assignment e)).Pairwise
      fun x y => x.1 < y.1 := List.pairwise_map.2 (List.pairwise_map.1 s.1.table.ascending)
  have hentries : (s.1.table.entries.map fun e => (e.1, Child.assignment e)) = ys :=
    List.Perm.eq_of_pairwise (fun _ _ _ _ hxy hyx => absurd hxy (UInt32.lt_asymm hyx)) hseats
      (List.pairwise_map.1 hascending) (h.table.trans hys.symm)
  rw [← hentries, List.map_map]
  rfl

end Children.Replanted

namespace Setting

variable {env : Setting}

theorem claim_free {p : UInt32} (h : p ∉ b.ids.ids) :
    ∃ ids, env.claim (some p) b = (.ok p, { b with ids }) ∧ ids.ids.Perm (p :: b.ids.ids) := by
  have hadd : b.ids.add p = (true, { b.ids with inUse := b.ids.inUse.add p }) := by
    have hcontains : ¬ b.ids.contains p = true := fun hc => h (Table.contains_iff.1 hc)
    rw [PartitionIds.add, if_neg hcontains]
  refine ⟨{ b.ids with inUse := b.ids.inUse.add p }, ?_, PartitionIds.add_perm hadd⟩
  simp only [claim, hadd]

/-- Whatever is asked for under a node with the levels below it, it comes back with all that hung
under it. -/
def Replants (env : Setting) (marked : Prop) (below : List Level) : Prop :=
  ∀ {path : Path} {owner : Controller} {children : Children below} {rs : List Request}
    {r : Request} {b₀ b : Books},
    (marked → ∀ l ∈ owner.level :: below, l.kind ≠ .temporal) →
    Children.Replanted marked rs b₀ (children, b) → r.Recreates env.now below owner.level →
    r.seat below ∉ rs.map (Request.seat below) →
    b.Free env.limit (r.assignment.partitions below) →
    Ends (fun _ => Children.Replanted marked (rs ++ [r]) b₀) (fun _ _ => False)
      (env.startChild below path owner r (children, b))

theorem replants_nil (hwilling : env.runtime.Willing) : env.Replants marked [] := by
  intro path owner partitions rs r b₀ b hmarked h hr hseat hfree
  obtain ⟨p, hassigned, hrecovered⟩ := hr.fits
  have hparts : r.assignment.partitions [] = [p] := by
    rw [Assignment.partitions_leaf, Request.assignment, hassigned]
    rfl
  rw [hparts] at hfree
  have hnew : p ∉ b.ids.ids := fun hmem =>
    List.disjoint_of_nodup_append hfree.distinct hmem (List.mem_singleton_self p)
  have hroom : ∀ n ∈ env.limit, b.ids.count < n := by
    intro n hn
    have hlength := hfree.room n hn
    rw [List.length_append, PartitionIds.length_ids] at hlength
    exact hlength
  obtain ⟨ids, hclaim, hids⟩ := env.claim_free hnew
  rw [← hassigned] at hclaim
  refine (startPartition_willing hwilling hroom hclaim).imp ?_ fun _ _ h => h
  rintro handle ⟨partitions', b'⟩ ⟨⟨running, hkey, rfl, -⟩, hlaunched⟩
  have hseatp : r.seat [] = p := by rw [Request.seat, hassigned]; rfl
  let a : Child [] := running
  refine h.concat (a := a) ?_ hseat ?_ ?_ fun hmark => ⟨_, hlaunched.started, fun q hq => ?_⟩
  · rw [hseatp]
    rfl
  · rw [hseatp, Request.assignment, hassigned, hrecovered, ← hkey]
    rfl
  · rw [hparts, hlaunched.ids]
    exact hids.trans (List.perm_append_singleton _ _).symm
  · obtain ⟨s, -, rfl⟩ := List.mem_map.1 hq
    exact hr.recovered (hmarked hmark _ (List.mem_cons_self ..))

theorem activate_replants (h : env.Replants marked below) (hl : l.flaw? = none)
    (hmarked : marked → ∀ m ∈ l :: below, m.kind ≠ .temporal) {a : Activation}
    (htrigger : a.trigger = none) (hnow : a.now = env.now)
    (hregrow : Assignment.Regrow env.now below l a.recovered)
    (hfree : b.Free env.limit (a.recovered.flatMap (Assignment.partitions below)))
    (id : ControllerId) (place : UInt32) (nesting : Nat) (path : Path) :
    Ends (fun _ p => Children.Replanted marked (l.replay env.now a.recovered) b p.2)
      (fun _ _ => False)
      (Controller.activate (env.lifecycle below path (Controller.create l id place nesting)) a
        (Controller.create l id place nesting, (Children.empty below, b))) := by
  let rs := l.replay env.now a.recovered
  have hlevel : (Controller.create l id place nesting).level = l := Scheme.level_ofLevel l
  have hfree' : b.Free env.limit (rs.flatMap fun r => r.assignment.partitions below) :=
    hfree.mono (List.Perm.subperm (hregrow.whole.replay_partitions.append_left _))
  have hseats : (rs.map (Request.seat below)).Nodup := by
    obtain ⟨ys, hascending, -, hys⟩ := hregrow.seated hl
    have hperm := hys.map Prod.fst
    rw [List.map_map] at hperm
    exact hperm.nodup_iff.1 (hascending.imp fun hlt => UInt32.ne_of_lt hlt)
  let J (rest : List Request) (s : Children below × Books) : Prop :=
    ∃ done, rs = done ++ rest ∧ Children.Replanted marked done b s
  let life := env.lifecycle below path (Controller.create l id place nesting)
  have hstart : ∀ r rest, Triple (J (r :: rest)) (life.start r) (fun _ => J rest)
      fun _ _ => False := by
    rintro r rest ⟨children, b'⟩ ⟨done, hsplit, hdone⟩
    have hmem : r ∈ rs := by
      rw [hsplit]
      exact List.mem_append_right _ (List.mem_cons_self ..)
    have hr : r.Recreates env.now below (Controller.create l id place nesting).level := by
      rw [hlevel]
      exact hregrow.recreates hmem
    have hseat : r.seat below ∉ done.map (Request.seat below) := by
      rw [hsplit, List.map_append, List.map_cons, List.nodup_middle] at hseats
      exact fun hmem => (List.nodup_cons.1 hseats).1 (List.mem_append_left _ hmem)
    have hroom : b.Free env.limit
        ((done ++ [r]).flatMap fun r => r.assignment.partitions below) := by
      refine hfree'.mono (List.Sublist.subperm ?_)
      have hprefix : rs = (done ++ [r]) ++ rest := by rw [hsplit, List.append_assoc]; rfl
      have hflat := List.sublist_append_left
        ((done ++ [r]).flatMap fun r => r.assignment.partitions below)
        (rest.flatMap fun r => r.assignment.partitions below)
      rw [← List.flatMap_append, ← hprefix] at hflat
      exact hflat.append_left _
    refine (h (hlevel.symm ▸ hmarked) hdone hr hseat (hdone.free hroom)).imp ?_ fun _ _ he => he
    exact fun _ s hs => ⟨done ++ [r], by rw [hsplit]; simp, hs⟩
  have hready : J rs (Children.empty below, b) := ⟨[], rfl, Children.Replanted.empty rfl rfl⟩
  have hready' : J (l.replay a.now a.recovered) (Children.empty below, b) := hnow ▸ hready
  have hwhole := hregrow.whole
  refine Controller.run_ends ((Scheme.activate_replays hl hwhole.kind hwhole.toNamed htrigger
    hstart hready').imp ?_ fun _ _ he => he)
  rintro - ⟨scheme, s⟩ ⟨-, done, hsplit, hdone⟩
  rw [List.append_nil] at hsplit
  rwa [← hsplit] at hdone

theorem replants_cons {m : Level} (h : env.Replants marked below) (hm : m.flaw? = none) :
    env.Replants marked (m :: below) := by
  intro path owner children rs r b₀ b hmarked hrs hr hseat hfree
  obtain ⟨hassigned, hregrow⟩ := hr.fits
  simp only [startChild]
  split
  · next hc => exact absurd (hrs.keys.mem_iff.1 (Table.contains_iff.1 hc)) hseat
  · let xs := r.recovered.getD []
    let b₁ := { b with nextController := b.nextController + 1 }
    have hparts : r.assignment.partitions (m :: below) =
        xs.flatMap (Assignment.partitions below) := Assignment.partitions_branch _
    have hfree₁ : b₁.Free env.limit (xs.flatMap (Assignment.partitions below)) := by
      rw [← hparts]
      exact ⟨hfree.distinct, hfree.room⟩
    have hgrown := activate_replants h hm
      (fun hmark l hl => hmarked hmark l (List.mem_cons_of_mem _ hl)) (a := env.activation r)
      hr.trigger rfl hregrow hfree₁ ⟨b.nextController⟩ r.path (owner.nesting + 1)
      (path ++ [⟨owner.level, r.key, r.properties⟩])
    split
    · next controller grown b₂ heq =>
        have hreplanted : Children.Replanted marked (m.replay env.now xs) b₁ (grown, b₂) :=
          hgrown.congr heq
        let branch : Branch (Children below) := ⟨r.key, r.properties, ⟨controller, grown⟩⟩
        let a : Child (m :: below) := branch
        have hassignments : Node.assignments below ⟨controller, grown⟩ = xs := by
          rw [Node.assignments_eq]
          exact hreplanted.assignments hregrow hm
        refine hrs.concat (a := a) rfl hseat ?_ ?_ hreplanted.started
        · rw [Request.assignment, hassigned]
          exact congrArg (fun children => ({ key := r.key, children } : Assignment)) hassignments
        · rw [hparts]
          exact hreplanted.ids.trans (hregrow.whole.replay_partitions.append_left _)
    · next why controller grown b₂ heq => exact (hgrown.congr heq).elim

theorem replants (hwilling : env.runtime.Willing) (below : List Level)
    (hl : ∀ l ∈ below, l.flaw? = none) : env.Replants marked below := by
  induction below with
  | nil => exact replants_nil hwilling
  | cons m below ih =>
      obtain ⟨hm, hbelow⟩ := List.forall_mem_cons.1 hl
      exact replants_cons (ih hbelow) hm

end Setting

end EventContexts
