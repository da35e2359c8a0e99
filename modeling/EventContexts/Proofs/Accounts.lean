import EventContexts.Proofs.Books
import EventContexts.Proofs.PartitionIds

namespace EventContexts

open Act

inductive Number where
  | controller (id : ControllerId)
  | partition (id : UInt32)
  | generation (n : Nat)

namespace Number

def controller? : Number → Option ControllerId
  | .controller id => some id
  | _ => none

def partition? : Number → Option UInt32
  | .partition id => some id
  | _ => none

def generation? : Number → Option Nat
  | .generation n => some n
  | _ => none

end Number

namespace Books

/-- The live numbers are `xs`; generations from `since` on have been given. -/
structure Accounts (limit : Option Nat) (since : Nat) (xs : List Number) (b : Books) :
    Prop where
  partitions : b.ids.ids.Perm (xs.filterMap Number.partition?)
  controllers : (xs.filterMap Number.controller?).Nodup
  controllersGiven : ∀ id ∈ xs.filterMap Number.controller?, id.number < b.nextController
  generations : (xs.filterMap Number.generation?).Nodup
  generationsGiven : ∀ n ∈ xs.filterMap Number.generation?, n < b.nextGeneration
  since : since ≤ b.nextGeneration
  limit : ∀ n ∈ limit, b.ids.ids.length ≤ n

variable {limit : Option Nat} {since : Nat} {xs ys : List Number} {b b' : Books}

namespace Accounts

theorem shed (h : b.Accounts limit since xs)
    (hp : (xs.filterMap Number.partition?).Perm (ys.filterMap Number.partition?))
    (hc : (ys.filterMap Number.controller?).Subperm (xs.filterMap Number.controller?))
    (hg : (ys.filterMap Number.generation?).Subperm (xs.filterMap Number.generation?)) :
    b.Accounts limit since ys where
  partitions := h.partitions.trans hp
  controllers := hc.nodup h.controllers
  controllersGiven id hid := h.controllersGiven id (hc.subset hid)
  generations := hg.nodup h.generations
  generationsGiven n hn := h.generationsGiven n (hg.subset hn)
  since := h.since
  limit := h.limit

theorem perm (h : b.Accounts limit since xs) (hxs : xs.Perm ys) : b.Accounts limit since ys :=
  h.shed (hxs.filterMap _) (hxs.filterMap _).symm.subperm (hxs.filterMap _).symm.subperm

theorem dropController {id : ControllerId} (h : b.Accounts limit since (.controller id :: xs)) :
    b.Accounts limit since xs :=
  h.shed (List.Perm.refl _) (List.sublist_cons_self ..).subperm (List.Perm.refl _).subperm

theorem dropGeneration {n : Nat} (h : b.Accounts limit since (.generation n :: xs)) :
    b.Accounts limit since xs :=
  h.shed (List.Perm.refl _) (List.Perm.refl _).subperm (List.sublist_cons_self ..).subperm

theorem not_mem_partition {p : UInt32} (h : b.Accounts limit since (.partition p :: xs)) :
    Number.partition p ∉ xs := by
  intro hmem
  have hnodup : (p :: xs.filterMap Number.partition?).Nodup :=
    h.partitions.nodup_iff.1 b.ids.nodup_ids
  exact (List.nodup_cons.1 hnodup).1 (List.mem_filterMap.2 ⟨_, hmem, rfl⟩)

theorem congr (h : b.Accounts limit since xs) (hids : b'.ids = b.ids)
    (hc : b'.nextController = b.nextController) (hg : b'.nextGeneration = b.nextGeneration) :
    b'.Accounts limit since xs := by
  constructor
  · exact hids ▸ h.partitions
  · exact h.controllers
  · exact hc ▸ h.controllersGiven
  · exact h.generations
  · exact hg ▸ h.generationsGiven
  · exact hg ▸ h.since
  · exact hids ▸ h.limit

theorem count (h : b.Accounts limit since xs) (f : Metrics → Metrics) :
    (b.count f).Accounts limit since xs :=
  h.congr rfl rfl rfl

theorem updateGauge (h : b.Accounts limit since xs) : b.updateGauge.Accounts limit since xs :=
  h.congr rfl rfl rfl

theorem noted (h : b.Accounts limit since xs) (hb : b.Notes b') : b'.Accounts limit since xs :=
  h.congr hb.ids hb.controllers hb.generations

theorem skipController (h : b.Accounts limit since xs) :
    { b with nextController := b.nextController + 1 }.Accounts limit since xs :=
  { h with controllersGiven := fun id hid => Nat.lt_succ_of_lt (h.controllersGiven id hid) }

theorem openController (h : b.Accounts limit since xs) :
    { b with nextController := b.nextController + 1 }.Accounts limit since
      (.controller ⟨b.nextController⟩ :: xs) where
  partitions := h.partitions
  controllers := by
    refine List.nodup_cons.2 ⟨fun hmem => ?_, h.controllers⟩
    exact Nat.lt_irrefl _ (h.controllersGiven _ hmem)
  controllersGiven id hid := by
    rcases List.mem_cons.1 hid with rfl | hid
    · exact Nat.lt_succ_self _
    · exact Nat.lt_succ_of_lt (h.controllersGiven id hid)
  generations := h.generations
  generationsGiven := h.generationsGiven
  since := h.since
  limit := h.limit

theorem openGeneration (h : b.Accounts limit since xs) :
    { b with nextGeneration := b.nextGeneration + 1 }.Accounts limit since
      (.generation b.nextGeneration :: xs) where
  partitions := h.partitions
  controllers := h.controllers
  controllersGiven := h.controllersGiven
  generations := by
    refine List.nodup_cons.2 ⟨fun hmem => ?_, h.generations⟩
    exact Nat.lt_irrefl _ (h.generationsGiven _ hmem)
  generationsGiven n hn := by
    rcases List.mem_cons.1 hn with rfl | hn
    · exact Nat.lt_succ_self _
    · exact Nat.lt_succ_of_lt (h.generationsGiven n hn)
  since := Nat.le_succ_of_le h.since
  limit := h.limit

theorem release {p : UInt32} (h : b.Accounts limit since (.partition p :: xs)) :
    (b.release p).Accounts limit since xs := by
  have hmem : p ∈ b.ids.ids := h.partitions.mem_iff.2 (List.mem_cons_self ..)
  have hperm : b.ids.ids.Perm (p :: (b.release p).ids.ids) := PartitionIds.remove_perm hmem
  refine ⟨?_, h.controllers, h.controllersGiven, h.generations, h.generationsGiven, h.since, ?_⟩
  · exact (hperm.symm.trans h.partitions).cons_inv
  · intro n hn
    have hlength := hperm.length_eq
    have hle := h.limit n hn
    rw [hlength, List.length_cons] at hle
    omega

theorem clear (h : b.Accounts limit since xs) :
    { b with ids := b.ids.clear }.Accounts limit since [] :=
  ⟨List.Perm.refl _, List.nodup_nil, by simp, List.nodup_nil, by simp, h.since,
    fun _ _ => Nat.zero_le _⟩

theorem claim {env : Setting} (h : b.Accounts limit since xs)
    (hroom : ∀ n ∈ limit, b.ids.count < n) (assigned : Option UInt32) :
    Ends (fun p b' => b'.Accounts limit since (.partition p :: xs))
      (fun _ b' => b'.Accounts limit since xs) (env.claim assigned b) := by
  have hdone {p : UInt32} {ids : PartitionIds} (hperm : ids.ids.Perm (p :: b.ids.ids)) :
      { b with ids }.Accounts limit since (.partition p :: xs) := by
    refine ⟨hperm.trans (h.partitions.cons p), h.controllers, h.controllersGiven, h.generations,
      h.generationsGiven, h.since, fun n hn => ?_⟩
    have hlt := hroom n hn
    rw [← PartitionIds.length_ids] at hlt
    rw [hperm.length_eq, List.length_cons]
    omega
  cases assigned with
  | some p =>
      rw [Setting.claim]
      split
      · next hadd => exact hdone (PartitionIds.add_perm hadd)
      · exact h
  | none =>
      rw [Setting.claim]
      split
      · next hcount => exact hdone (PartitionIds.allocate_perm hcount)
      · exact h

end Accounts

variable {env : Setting}

theorem keeps_startAgent {path : Path} {p : UInt32} {recovering : Bool} {s : Statement} :
    Keeps (Accounts limit since xs) (env.startAgent path p recovering s) :=
  fun _ h => ends_of_state (h.noted notes_startAgent)

theorem keeps_stopAgents {termination : Option Props} {statementLevel : Bool}
    {agents : List Agent} :
    Keeps (Accounts limit since xs) (env.stopAgents termination statementLevel agents) :=
  fun _ h => ends_of_state (h.noted notes_stopAgents)

theorem keeps_startAgents {path : Path} {p : UInt32} {recovering : Bool} {ss : List Statement}
    {started : List Agent} :
    Keeps (Accounts limit since xs) (env.startAgents path p recovering ss started) :=
  fun _ h => ends_of_state (h.noted notes_startAgents)

theorem accounts_offerAll (e : Event) (agents : List Agent) (h : b.Accounts limit since xs) :
    (offerAll e agents b).2.Accounts limit since xs :=
  h.noted notes_offerAll

theorem closePartition_triple {termination : Option Props} {statementLevel : Bool}
    {leaf : UInt32 × List Agent} :
    Triple (Accounts limit since (.partition leaf.1 :: xs))
      (env.closePartition termination statementLevel leaf)
      (fun _ => Accounts limit since xs) (fun _ => Accounts limit since xs) := by
  intro b h
  have hstop : (env.stopAgents termination statementLevel leaf.2 b).2.Accounts limit since
      (.partition leaf.1 :: xs) := (keeps_stopAgents b h).state
  exact ends_of_state (hstop.release.count Metrics.countTerminated)

theorem closePartitions_triple {termination : Option Props} {statementLevel : Bool}
    (leaves : List (UInt32 × List Agent)) :
    Triple (Accounts limit since (leaves.map (fun leaf => .partition leaf.1) ++ xs))
      (Act.forAll (env.closePartition termination statementLevel) leaves)
      (fun _ => Accounts limit since xs) (fun _ => Accounts limit since xs) := by
  let J (leaves : List (UInt32 × List Agent)) :=
    Accounts limit since (leaves.map (fun leaf => .partition leaf.1) ++ xs)
  exact triple_forAll (J := J) leaves fun _ _ => closePartition_triple

end Books

end EventContexts
