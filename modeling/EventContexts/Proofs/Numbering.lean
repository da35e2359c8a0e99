import EventContexts.Proofs.Books
import EventContexts.Proofs.PartitionIds

namespace EventContexts

namespace PartitionIds

variable {p : PartitionIds} {inUse : IdSet} {id x : UInt32} {ids rest : List UInt32} {n : Nat}

def queue (p : PartitionIds) : List UInt32 := if p.reuse then p.released else []

def reusable (p : PartitionIds) : List UInt32 :=
  if p.reuse then skipTaken p.inUse p.released else []

/-- The search for a free identifier, however far it goes: the queue first, then from a number on.
Counted are the numbers that it tries. -/
inductive Search (inUse : IdSet) : List UInt32 → UInt32 → Nat → UInt32 → Prop
  | released {id next : UInt32} {rest : List UInt32} (h : inUse.contains id = false) :
      Search inUse (id :: rest) next 0 id
  | back {id next found : UInt32} {rest : List UInt32} {n : Nat} (h : inUse.contains id = true)
      (more : Search inUse rest next n found) : Search inUse (id :: rest) next n found
  | free {next : UInt32} (h : inUse.contains next = false) : Search inUse [] next 1 next
  | taken {next found : UInt32} {n : Nat} (h : inUse.contains next = true)
      (more : Search inUse [] (next + 1) n found) : Search inUse [] next (n + 1) found

def advance (p : PartitionIds) : Nat :=
  match p.reusable with
  | _ :: _ => 0
  | [] => (p.allocate.1 - p.next).toNat + 1

theorem allocate_of_cons (h : p.reusable = id :: rest) :
    p.allocate = (id, { p with inUse := p.inUse.add id, released := rest }) := by
  rw [reusable] at h
  rw [allocate, h]

theorem allocate_of_nil (h : p.reusable = []) :
    p.allocate = (firstFree p.inUse p.inUse.size p.next,
      { p with
        next := firstFree p.inUse p.inUse.size p.next + 1
        inUse := p.inUse.add (firstFree p.inUse p.inUse.size p.next)
        released := if p.reuse then [] else p.released }) := by
  rw [reusable] at h
  rw [allocate, h]

theorem Search.of_taken {k : Nat} (htaken : ∀ j < k, id + UInt32.ofNat j ∈ inUse.keys)
    (hfree : id + UInt32.ofNat k ∉ inUse.keys) :
    Search inUse [] id (k + 1) (id + UInt32.ofNat k) := by
  induction k generalizing id with
  | zero =>
      have hid : id + UInt32.ofNat 0 = id := by simp
      rw [hid] at hfree ⊢
      exact .free (Bool.eq_false_iff.2 fun h => hfree (Table.contains_iff.1 h))
  | succ k ih =>
      have hshift (j : Nat) : id + UInt32.ofNat (j + 1) = id + 1 + UInt32.ofNat j :=
        (UInt32.add_one_add_ofNat id j).symm
      have hid : id ∈ inUse.keys := by simpa using htaken 0 (Nat.succ_pos k)
      rw [hshift] at hfree ⊢
      refine .taken (Table.contains_iff.2 hid) (ih (fun j hj => ?_) hfree)
      exact hshift j ▸ htaken (j + 1) (Nat.succ_lt_succ hj)

theorem allocate_counts (hroom : p.count < UInt32.size) (h : p.reusable = []) :
    ∃ k < UInt32.size, p.advance = k + 1 ∧ p.allocate.1 = p.next + UInt32.ofNat k ∧
      p.allocate.2.next = p.next + UInt32.ofNat (k + 1) ∧
      Search p.inUse [] p.next (k + 1) p.allocate.1 := by
  obtain ⟨k, hk, hid, htaken, -⟩ := firstFree_spec p.inUse p.inUse.size p.next
  have hfree : firstFree p.inUse p.inUse.size p.next ∉ p.inUse.keys := firstFree_not_mem hroom
  have hlt : k < UInt32.size := Nat.lt_of_le_of_lt hk hroom
  have hadvance : p.advance = (p.allocate.1 - p.next).toNat + 1 := by rw [advance, h]
  rw [hid] at hfree
  rw [hadvance, allocate_of_nil h]
  simp only [hid]
  refine ⟨k, hlt, ?_, rfl, ?_, Search.of_taken htaken hfree⟩
  · rw [UInt32.add_comm, UInt32.add_sub_cancel, UInt32.toNat_ofNat_of_lt' hlt]
  · rw [UInt32.add_assoc, UInt32.ofNat_add_one]

theorem mem_skipTaken (h : id ∈ ids) (hfree : id ∉ inUse.keys) : id ∈ skipTaken inUse ids := by
  induction ids with
  | nil => exact h
  | cons x xs ih =>
      rw [skipTaken]
      split
      · next hx =>
          rcases List.mem_cons.1 h with rfl | h
          · exact absurd (Table.contains_iff.1 hx) hfree
          · exact ih h
      · exact h

theorem skipTaken_suffix : skipTaken inUse ids <:+ ids := by
  induction ids with
  | nil => exact List.suffix_refl _
  | cons x xs ih =>
      rw [skipTaken]
      split
      · exact ih.trans (List.suffix_cons x xs)
      · exact List.suffix_refl _

theorem search_of_cons {next : UInt32} (h : skipTaken inUse ids = id :: rest) :
    Search inUse ids next 0 id := by
  induction ids with
  | nil => cases h
  | cons x xs ih =>
      rw [skipTaken] at h
      split at h
      · next hx => exact .back hx (ih h)
      · next hx =>
          obtain ⟨rfl, -⟩ := List.cons.inj h
          exact .released (Bool.eq_false_iff.2 hx)

theorem search_of_nil {next : UInt32} (h : skipTaken inUse ids = [])
    (hsearch : Search inUse [] next n x) : Search inUse ids next n x := by
  induction ids with
  | nil => exact hsearch
  | cons y ys ih =>
      rw [skipTaken] at h
      split at h
      · next hy => exact .back hy (ih h)
      · cases h

theorem reusable_eq : p.reusable = skipTaken p.inUse p.queue := by
  rw [reusable, queue]
  split <;> rfl

theorem search_allocate (hroom : p.count < UInt32.size) :
    Search p.inUse p.queue p.next p.advance p.allocate.1 := by
  cases h : p.reusable with
  | nil =>
      obtain ⟨k, -, hadvance, -, -, hsearch⟩ := allocate_counts hroom h
      rw [reusable_eq] at h
      exact hadvance ▸ search_of_nil h hsearch
  | cons id rest =>
      rw [advance, h, allocate_of_cons h]
      exact search_of_cons (reusable_eq ▸ h)

theorem mem_reusable (hreuse : p.reuse = true) (h : id ∈ p.released) (hfree : id ∉ p.ids) :
    id ∈ p.reusable := by
  rw [reusable, if_pos hreuse]
  exact mem_skipTaken h hfree

theorem reusable_suffix : p.reusable <:+ p.released := by
  rw [reusable]
  split
  · exact skipTaken_suffix
  · exact List.nil_suffix

theorem head_reusable (h : p.reusable = id :: rest) : id ∉ p.ids := by
  rw [reusable] at h
  split at h
  · exact skipTaken_head h
  · cases h

theorem allocate_fresh (hroom : p.count < UInt32.size) : p.allocate.1 ∉ p.ids := by
  cases h : p.reusable with
  | nil =>
      rw [allocate_of_nil h]
      exact firstFree_not_mem hroom
  | cons id rest =>
      rw [allocate_of_cons h]
      exact head_reusable h

theorem mem_ids_allocate (hroom : p.count < UInt32.size) :
    x ∈ p.allocate.2.ids ↔ x = p.allocate.1 ∨ x ∈ p.ids := by
  rw [(allocate_perm hroom).mem_iff, List.mem_cons]

theorem contains_iff : p.contains id = true ↔ id ∈ p.ids := Table.contains_iff

theorem add_of_mem (h : id ∈ p.ids) : p.add id = (false, p) := by
  rw [add, if_pos (contains_iff.2 h)]

theorem add_of_not_mem (h : id ∉ p.ids) :
    p.add id = (true, { p with inUse := p.inUse.add id }) := by
  rw [add, if_neg fun hc => h (contains_iff.1 hc)]

theorem remove_of_mem (h : id ∈ p.ids) :
    p.remove id = (true, { p with
      inUse := p.inUse.erase id
      released := if p.reuse then p.released ++ [id] else p.released }) := by
  rw [remove, if_pos (contains_iff.2 h)]

theorem remove_of_not_mem (h : id ∉ p.ids) : p.remove id = (false, p) := by
  rw [remove, if_neg fun hc => h (contains_iff.1 hc)]

theorem mem_ids_add : x ∈ (p.add id).2.ids ↔ x = id ∨ x ∈ p.ids := by
  by_cases h : id ∈ p.ids
  · rw [add_of_mem h]
    exact ⟨.inr, fun hx => hx.elim (fun heq => heq ▸ h) fun hin => hin⟩
  · rw [add_of_not_mem h]
    exact Table.mem_keys_insert

theorem mem_ids_remove : x ∈ (p.remove id).2.ids ↔ x ≠ id ∧ x ∈ p.ids := by
  by_cases h : id ∈ p.ids
  · rw [remove_of_mem h]
    exact Table.mem_keys_erase.trans and_comm
  · rw [remove_of_not_mem h]
    exact ⟨fun hx => ⟨fun heq => h (heq ▸ hx), hx⟩, And.right⟩

@[simp] theorem released_add : (p.add id).2.released = p.released := by
  rw [add]
  split <;> rfl

theorem mem_released_remove (hreuse : p.reuse = true) :
    x ∈ (p.remove id).2.released ↔ x ∈ p.released ∨ x = id ∧ id ∈ p.ids := by
  by_cases h : id ∈ p.ids
  · rw [remove_of_mem h]
    simp [hreuse, h]
  · rw [remove_of_not_mem h]
    simp [h]

@[simp] theorem next_add : (p.add id).2.next = p.next := by
  rw [add]
  split <;> rfl

@[simp] theorem next_remove : (p.remove id).2.next = p.next := by
  rw [remove]
  split <;> rfl

inductive Call where
  | allocate
  | add (id : UInt32)
  | remove (id : UInt32)
  | clear
  deriving DecidableEq, Repr

end PartitionIds

open PartitionIds

/-- The identifiers as they are now and as they were since the last clearing, the latest first, with
those handed out since then in order and the count of the numbers that the counter went through. -/
structure Numbering where
  now : PartitionIds
  past : List PartitionIds
  given : List UInt32
  counted : Nat

namespace Numbering

variable {reuse : Bool} {n : Numbering} {p q : PartitionIds} {id x : UInt32} {call : Call}

def start (p : PartitionIds) : Numbering := ⟨p, [p], [], 0⟩

def become (n : Numbering) (p : PartitionIds) : Numbering :=
  { n with now := p, past := p :: n.past }

def step (n : Numbering) : Call → Numbering
  | .allocate => { n.become n.now.allocate.2 with
      given := n.given ++ [n.now.allocate.1]
      counted := n.counted + n.now.advance }
  | .add id => n.become (n.now.add id).2
  | .remove id => n.become (n.now.remove id).2
  | .clear => start n.now.clear

/-- Reached from nothing by calls, none of which asks for an identifier when all are in use. -/
inductive Reachable (reuse : Bool) : Numbering → Prop
  | new : Reachable reuse (start (.new reuse))
  | step {n : Numbering} (h : Reachable reuse n) (call : Call)
      (hroom : call = .allocate → n.now.count < UInt32.size) : Reachable reuse (n.step call)

/-- In use at some time since the last clearing. -/
def Used (n : Numbering) (id : UInt32) : Prop := ∃ p ∈ n.past, id ∈ p.ids

theorem used_become : (n.become q).Used x ↔ x ∈ q.ids ∨ n.Used x := List.exists_mem_cons_iff ..

theorem Reachable.reuse_eq (h : Reachable reuse n) : n.now.reuse = reuse := by
  induction h with
  | new => rfl
  | step h call hroom ih => cases call <;> simp [Numbering.step, become, start, clear, ih]

structure Returns (n : Numbering) : Prop where
  used : ∀ x ∈ n.now.ids, n.Used x
  released : ∀ x ∈ n.now.released, n.Used x
  kept : ∀ x, n.Used x → x ∈ n.now.ids ∨ x ∈ n.now.released

namespace Returns

theorem start (hids : p.ids = []) (hreleased : p.released = []) : (start p).Returns where
  used _ hx := by simp [Numbering.start, hids] at hx
  released _ hx := by simp [Numbering.start, hreleased] at hx
  kept := by
    rintro x ⟨_, hp, hx⟩
    obtain rfl := List.mem_singleton.1 hp
    exact .inl hx

theorem become (h : n.Returns)
    (hreleased : ∀ x ∈ q.released, x ∈ n.now.ids ∨ x ∈ n.now.released)
    (hkept : ∀ x, x ∈ n.now.ids ∨ x ∈ n.now.released → x ∈ q.ids ∨ x ∈ q.released) :
    (n.become q).Returns where
  used _ hx := used_become.2 (.inl hx)
  released x hx := used_become.2 <| .inr <| (hreleased x hx).elim (h.used x) (h.released x)
  kept x hx := (used_become.1 hx).elim .inl fun hused => hkept x (h.kept x hused)

theorem allocate (h : n.Returns) (hreuse : n.now.reuse = true)
    (hroom : n.now.count < UInt32.size) : (n.step .allocate).Returns := by
  have hbecome : (n.become n.now.allocate.2).Returns := by
    refine h.become (fun x hx => .inr ?_) ?_
    · cases hqueue : n.now.reusable with
      | nil => simp [allocate_of_nil hqueue, hreuse] at hx
      | cons id rest =>
          rw [allocate_of_cons hqueue] at hx
          exact reusable_suffix.subset (hqueue ▸ List.mem_cons_of_mem id hx)
    · intro x hx
      by_cases hin : x ∈ n.now.ids
      · exact .inl ((mem_ids_allocate hroom).2 (.inr hin))
      · have hwaits := mem_reusable hreuse (hx.resolve_left hin) hin
        cases hqueue : n.now.reusable with
        | nil => rw [hqueue] at hwaits; cases hwaits
        | cons id rest =>
            rw [hqueue] at hwaits
            rw [mem_ids_allocate hroom, allocate_of_cons hqueue]
            exact (List.mem_cons.1 hwaits).imp_left .inl
  exact ⟨hbecome.used, hbecome.released, hbecome.kept⟩

theorem add (h : n.Returns) (id : UInt32) : (n.step (.add id)).Returns := by
  refine h.become (fun x hx => .inr ?_) fun x hx => ?_
  · rwa [released_add] at hx
  · rw [mem_ids_add, released_add]
    exact hx.imp_left .inr

theorem remove (h : n.Returns) (hreuse : n.now.reuse = true) (id : UInt32) :
    (n.step (.remove id)).Returns := by
  refine h.become (fun x hx => ?_) fun x hx => ?_
  · rcases (mem_released_remove hreuse).1 hx with hwaits | ⟨rfl, hin⟩
    · exact .inr hwaits
    · exact .inl hin
  · rw [mem_ids_remove, mem_released_remove hreuse]
    rcases hx with hin | hwaits
    · by_cases heq : x = id
      · exact .inr (.inr ⟨heq, heq ▸ hin⟩)
      · exact .inl ⟨heq, hin⟩
    · exact .inr (.inl hwaits)

end Returns

/-- The identifiers handed out ascend and the counter is past them all, unless it came round. -/
structure Ascends (n : Numbering) : Prop where
  next : n.now.next = UInt32.ofNat n.counted
  ascending : n.counted ≤ UInt32.size → n.given.Pairwise (· < ·)
  passed : n.counted ≤ UInt32.size → ∀ x ∈ n.given, x.toNat < n.counted

namespace Ascends

theorem allocate (h : n.Ascends) (hreuse : n.now.reuse = false)
    (hroom : n.now.count < UInt32.size) : (n.step .allocate).Ascends := by
  have hnone : n.now.reusable = [] := by simp [reusable, hreuse]
  obtain ⟨k, hk, hadvance, hid, hnext, -⟩ := allocate_counts hroom hnone
  have hplace (j : Nat) : n.now.next + UInt32.ofNat j = UInt32.ofNat (n.counted + j) := by
    rw [h.next, UInt32.ofNat_add]
  have hcounted : (n.step .allocate).counted = n.counted + (k + 1) := by
    rw [← hadvance]
    rfl
  rw [hplace] at hid hnext
  refine ⟨by rw [hcounted]; exact hnext, fun hle => ?_, fun hle => ?_⟩ <;> rw [hcounted] at hle
  · have hbefore : n.counted ≤ UInt32.size := by omega
    have hlast : n.now.allocate.1.toNat = n.counted + k := by
      rw [hid, UInt32.toNat_ofNat_of_lt' (by omega)]
    refine List.pairwise_append.2 ⟨h.ascending hbefore, List.pairwise_singleton _ _, ?_⟩
    intro x hx y hy
    obtain rfl := List.mem_singleton.1 hy
    have hpassed := h.passed hbefore x hx
    exact UInt32.lt_iff_toNat_lt.2 (by omega)
  · have hbefore : n.counted ≤ UInt32.size := by omega
    rw [hcounted]
    intro x hx
    rcases List.mem_append.1 hx with hx | hx
    · have hpassed := h.passed hbefore x hx
      omega
    · obtain rfl := List.mem_singleton.1 hx
      rw [hid, UInt32.toNat_ofNat_of_lt' (by omega)]
      omega

theorem start (h : p.next = 0) : (Numbering.start p).Ascends :=
  ⟨h, fun _ => List.Pairwise.nil, fun _ _ hx => absurd hx List.not_mem_nil⟩

theorem become (h : n.Ascends) (hnext : q.next = n.now.next) : (n.become q).Ascends :=
  ⟨hnext.trans h.next, h.ascending, h.passed⟩

end Ascends

theorem Reachable.returns (h : Reachable true n) : n.Returns := by
  induction h with
  | new => exact .start rfl rfl
  | step h call hroom ih =>
      cases call with
      | allocate => exact ih.allocate h.reuse_eq (hroom rfl)
      | add id => exact ih.add id
      | remove id => exact ih.remove h.reuse_eq id
      | clear => exact .start rfl rfl

theorem Reachable.ascends (h : Reachable false n) : n.Ascends := by
  induction h with
  | new => exact .start rfl
  | step h call hroom ih =>
      cases call with
      | allocate => exact ih.allocate h.reuse_eq (hroom rfl)
      | add id => exact ih.become next_add
      | remove id => exact ih.become next_remove
      | clear => exact .start rfl

theorem Returns.allocate_used (h : n.Returns) (hreuse : n.now.reuse = true) (hused : n.Used x)
    (hfree : x ∉ n.now.ids) :
    n.Used n.now.allocate.1 ∧ n.now.allocate.1 ∉ n.now.ids ∧ n.now.advance = 0 := by
  have hwaits := mem_reusable hreuse ((h.kept x hused).resolve_left hfree) hfree
  cases hqueue : n.now.reusable with
  | nil =>
      rw [hqueue] at hwaits
      cases hwaits
  | cons id rest =>
      rw [advance, hqueue, allocate_of_cons hqueue]
      have hid : id ∈ n.now.released := reusable_suffix.subset (hqueue ▸ List.mem_cons_self ..)
      exact ⟨h.released id hid, head_reusable hqueue, rfl⟩

/-- After any calls the search for a free identifier ends, and each call changes the identifiers in
use by the one that it names or hands out and says whether it did. Without reuse those handed out
since the last clearing ascend until the counter comes round; with reuse none is fresh while one
that was in use is free. -/
theorem each_call_exact (h : Reachable reuse n) :
    (n.now.count < UInt32.size →
      Search n.now.inUse n.now.queue n.now.next n.now.advance n.now.allocate.1 ∧
        n.now.allocate.1 ∉ n.now.ids ∧
        n.now.allocate.2.ids.Perm (n.now.allocate.1 :: n.now.ids)) ∧
      (∀ id, (n.now.add id).1 = decide (id ∉ n.now.ids) ∧
        ∀ x, x ∈ (n.now.add id).2.ids ↔ x = id ∨ x ∈ n.now.ids) ∧
      (∀ id, (n.now.remove id).1 = decide (id ∈ n.now.ids) ∧
        ∀ x, x ∈ (n.now.remove id).2.ids ↔ x ≠ id ∧ x ∈ n.now.ids) ∧
      (reuse = false → n.counted ≤ UInt32.size → n.given.Pairwise (· < ·)) ∧
      (reuse = true → ∀ x, n.Used x → x ∉ n.now.ids →
        n.Used n.now.allocate.1 ∧ n.now.allocate.1 ∉ n.now.ids ∧ n.now.advance = 0) := by
  refine ⟨fun hroom => ?_, fun id => ⟨?_, fun x => mem_ids_add⟩,
    fun id => ⟨?_, fun x => mem_ids_remove⟩, ?_, ?_⟩
  · exact ⟨search_allocate hroom, allocate_fresh hroom, allocate_perm hroom⟩
  · by_cases hid : id ∈ n.now.ids
    · simp [add_of_mem hid, hid]
    · simp [add_of_not_mem hid, hid]
  · by_cases hid : id ∈ n.now.ids
    · simp [remove_of_mem hid, hid]
    · simp [remove_of_not_mem hid, hid]
  · rintro rfl
    exact h.ascends.ascending
  · rintro rfl x hused hfree
    exact h.returns.allocate_used h.reuse_eq hused hfree

theorem each_call_exact_released :
    let n := (((((start (.new true)).step (.add 1)).step .allocate).step .allocate).step
      (.remove 0)).step (.add 7)
    Reachable true n ∧ n.now.ids = [1, 2, 7] ∧ n.Used 0 ∧ 0 ∉ n.now.ids ∧ n.now.allocate.1 = 0 ∧
      n.now.advance = 0 ∧ n.now.allocate.2.ids.Perm (n.now.allocate.1 :: n.now.ids) := by
  intro n
  have h : Reachable true n := by
    refine .step (.step (.step (.step (.step .new _ ?_) _ ?_) _ ?_) _ ?_) _ ?_ <;> decide
  have hused : n.Used 0 := ⟨n.past[2], List.getElem_mem _, by decide⟩
  have hfree : 0 ∉ n.now.ids := by decide
  have hexact := each_call_exact h
  exact ⟨h, by decide, hused, hfree, by decide, (hexact.2.2.2.2 rfl 0 hused hfree).2.2,
    (hexact.1 (by decide)).2.2⟩

end Numbering

end EventContexts
