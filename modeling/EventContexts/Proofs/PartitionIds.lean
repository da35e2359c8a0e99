import EventContexts.PartitionIds
import EventContexts.Proofs.Entries

namespace UInt32

theorem ofNat_add_one (n : Nat) : ofNat n + 1 = ofNat (n + 1) := by
  rw [ofNat_add]
  rfl

theorem add_one_add_ofNat (x : UInt32) (n : Nat) : x + 1 + ofNat n = x + ofNat (n + 1) := by
  rw [← ofNat_add_one, UInt32.add_assoc, UInt32.add_comm 1]

theorem add_ofNat_injective {x : UInt32} {i j : Nat} (hi : i < size) (hj : j < size)
    (h : x + ofNat i = x + ofNat j) : i = j := by
  have h' : ofNat i = ofNat j := (UInt32.add_right_inj x).1 h
  have hn := congrArg toNat h'
  rwa [toNat_ofNat_of_lt' hi, toNat_ofNat_of_lt' hj] at hn

theorem lt_add_one_of_lt {x y : UInt32} (h : x < y) : x < x + 1 ∧ x + 1 ≤ y := by
  have hsucc : (x + 1).toNat = x.toNat + 1 := by
    rw [UInt32.toNat_add]
    exact Nat.mod_eq_of_lt (Nat.lt_of_le_of_lt (lt_iff_toNat_lt.1 h) y.toNat_lt)
  rw [lt_iff_toNat_lt, le_iff_toNat_le, hsucc]
  exact ⟨Nat.lt_succ_self _, lt_iff_toNat_lt.1 h⟩

end UInt32

namespace EventContexts

namespace PartitionIds

theorem firstFree_spec (inUse : IdSet) (fuel : Nat) (id : UInt32) :
    ∃ k ≤ fuel, firstFree inUse fuel id = id + UInt32.ofNat k ∧
      (∀ j < k, id + UInt32.ofNat j ∈ inUse.keys) ∧
      (k < fuel → id + UInt32.ofNat k ∉ inUse.keys) := by
  induction fuel generalizing id with
  | zero => exact ⟨0, Nat.le_refl 0, by simp [firstFree], by simp, by simp⟩
  | succ fuel ih =>
      by_cases hc : inUse.contains id = true
      · obtain ⟨k, hk, heq, htaken, hfree⟩ := ih (id + 1)
        have hshift := UInt32.add_one_add_ofNat id
        refine ⟨k + 1, by omega, by rw [firstFree, if_pos hc, heq, hshift], ?_, ?_⟩
        · intro j hj
          cases j with
          | zero => simpa using Table.contains_iff.1 hc
          | succ j => exact hshift j ▸ htaken j (by omega)
        · intro hlt
          exact hshift k ▸ hfree (by omega)
      · refine ⟨0, by omega, by simp [firstFree, hc], by simp, fun _ hmem => hc ?_⟩
        exact Table.contains_iff.2 (by simpa using hmem)

theorem firstFree_not_mem {inUse : IdSet} {id : UInt32} (h : inUse.size < UInt32.size) :
    firstFree inUse inUse.size id ∉ inUse.keys := by
  obtain ⟨k, hk, heq, htaken, hfree⟩ := firstFree_spec inUse inUse.size id
  rw [heq]
  rcases Nat.lt_or_eq_of_le hk with hlt | hlast
  · exact hfree hlt
  · -- one candidate more than there are identifiers in use cannot all be taken
    intro hmem
    let candidates := (List.range (inUse.size + 1)).map fun j => id + UInt32.ofNat j
    have hnodup : candidates.Nodup := by
      refine List.Nodup.map_on ?_ List.nodup_range
      intro i hi j hj hij
      rw [List.mem_range] at hi hj
      exact UInt32.add_ofNat_injective (by omega) (by omega) hij
    have hsub : candidates ⊆ inUse.keys := by
      intro x hx
      obtain ⟨j, hj, rfl⟩ := List.mem_map.1 hx
      rw [List.mem_range] at hj
      rcases Nat.lt_or_eq_of_le (Nat.lt_succ_iff.1 hj) with hlt | heq
      · exact htaken j (by omega)
      · rw [heq, ← hlast]
        exact hmem
    have hle := (List.subperm_of_subset hnodup hsub).length_le
    simp only [candidates, Table.keys, Table.size, List.length_map, List.length_range] at hle
    omega

theorem skipTaken_head {inUse : IdSet} {ids rest : List UInt32} {id : UInt32}
    (h : skipTaken inUse ids = id :: rest) : id ∉ inUse.keys := by
  induction ids with
  | nil => simp [skipTaken] at h
  | cons x xs ih =>
      rw [skipTaken] at h
      split at h
      · exact ih h
      · next hc =>
          obtain ⟨rfl, -⟩ := List.cons.inj h
          exact fun hmem => hc (Table.contains_iff.2 hmem)

theorem ids_add_perm {s : IdSet} {id : UInt32} (h : id ∉ s.keys) :
    (s.add id).keys.Perm (id :: s.keys) :=
  (Table.insert_perm_of_new h).map Prod.fst

theorem allocate_perm {p : PartitionIds} (h : p.count < UInt32.size) :
    p.allocate.2.ids.Perm (p.allocate.1 :: p.ids) := by
  rw [allocate]
  split
  · next id rest heq =>
      have hid : id ∉ p.inUse.keys := by
        split at heq
        · exact skipTaken_head heq
        · cases heq
      exact ids_add_perm hid
  · exact ids_add_perm (firstFree_not_mem h)

theorem add_perm {p q : PartitionIds} {id : UInt32} (h : p.add id = (true, q)) :
    q.ids.Perm (id :: p.ids) := by
  rw [add] at h
  split at h
  · simp at h
  · next hc =>
      obtain ⟨-, rfl⟩ := Prod.mk.inj h
      exact ids_add_perm fun hmem => hc (Table.contains_iff.2 hmem)

theorem remove_perm {p : PartitionIds} {id : UInt32} (h : id ∈ p.ids) :
    p.ids.Perm (id :: (p.remove id).2.ids) := by
  have hc : p.contains id = true := Table.contains_iff.2 h
  rw [remove, if_pos hc]
  obtain ⟨u, hu⟩ := Option.isSome_iff_exists.1 hc
  exact (Table.perm_of_get? hu).map Prod.fst

theorem length_ids (p : PartitionIds) : p.ids.length = p.count := by
  simp [ids, IdSet.toList, Table.keys, count, Table.size]

theorem nodup_ids (p : PartitionIds) : p.ids.Nodup := p.inUse.nodup_keys

theorem inUse_eq_of_ids {p q : PartitionIds} (h : p.ids = q.ids) : p.inUse = q.inUse :=
  Table.ext_entries (List.map_injective_iff.2 (fun _ _ heq => Prod.ext heq rfl) h)

end PartitionIds

end EventContexts
