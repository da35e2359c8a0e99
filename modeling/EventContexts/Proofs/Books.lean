import EventContexts.Context.Partitions
import EventContexts.Proofs.Triple

namespace EventContexts

open Act

namespace PartitionIds

variable {p : PartitionIds}

@[simp] theorem reuse_allocate : p.allocate.2.reuse = p.reuse := by
  rw [allocate]
  split <;> rfl

@[simp] theorem reuse_add {id : UInt32} : (p.add id).2.reuse = p.reuse := by
  rw [add]
  split <;> rfl

@[simp] theorem reuse_remove {id : UInt32} : (p.remove id).2.reuse = p.reuse := by
  rw [remove]
  split <;> rfl

end PartitionIds

namespace Books

structure Notes (b b' : Books) : Prop where
  ids : b'.ids = b.ids
  controllers : b'.nextController = b.nextController
  generations : b'.nextGeneration = b.nextGeneration
  trace : b.trace <+: b'.trace

structure Advances (b b' : Books) : Prop where
  reuse : b'.ids.reuse = b.ids.reuse
  controllers : b.nextController ≤ b'.nextController
  generations : b.nextGeneration ≤ b'.nextGeneration
  trace : b.trace <+: b'.trace

variable {b b' b'' : Books} {env : Setting} {path : Path} {p : UInt32} {recovering : Bool}
  {s : Statement} {termination : Option Props} {statementLevel : Bool}

namespace Notes

theorem refl (b : Books) : b.Notes b := ⟨rfl, rfl, rfl, List.prefix_refl _⟩

theorem trans (h : b.Notes b') (h' : b'.Notes b'') : b.Notes b'' where
  ids := h'.ids.trans h.ids
  controllers := h'.controllers.trans h.controllers
  generations := h'.generations.trans h.generations
  trace := h.trace.trans h'.trace

theorem record (h : b.Notes b') (a : Action) : b.Notes (b'.record a) :=
  ⟨h.ids, h.controllers, h.generations, h.trace.trans (List.prefix_append _ _)⟩

theorem count (h : b.Notes b') (f : Metrics → Metrics) : b.Notes (b'.count f) :=
  ⟨h.ids, h.controllers, h.generations, h.trace⟩

end Notes

theorem notes_startAgent : b.Notes (env.startAgent path p recovering s b).2 := by
  rw [Setting.startAgent]
  split
  · exact ((Notes.refl b).record _).count _
  · exact (Notes.refl b).record _

theorem notes_stopAgent {a : Agent} :
    b.Notes (env.stopAgent termination statementLevel a b).2 := by
  rw [Setting.stopAgent]
  split <;> exact ((Notes.refl b).record _).count _

theorem notes_stopAgents {agents : List Agent} :
    b.Notes (env.stopAgents termination statementLevel agents b).2 := by
  have hstop : Keeps (Notes b) (env.stopAgents termination statementLevel agents) :=
    keeps_forAll fun _ _ _ h => ends_of_state (h.trans notes_stopAgent)
  exact (hstop b (.refl b)).state

theorem notes_startAgents {ss : List Statement} {started : List Agent} :
    b.Notes (env.startAgents path p recovering ss started b).2 := by
  induction ss generalizing started b with
  | nil => exact .refl b
  | cons s rest ih =>
      have hstart : b.Notes (env.startAgent path p recovering s b).2 := notes_startAgent
      simp only [Setting.startAgents]
      split
      · next a b' heq =>
          rw [heq] at hstart
          exact hstart.trans ih
      · next e b' heq =>
          rw [heq] at hstart
          exact hstart.trans notes_stopAgents

theorem notes_offerAll {e : Event} {agents : List Agent} : b.Notes (offerAll e agents b).2 := by
  induction agents generalizing b with
  | nil => exact .refl b
  | cons a rest ih =>
      have hoffer : b.Notes (a.offer e b).2 := by
        rw [Agent.offer]
        split
        · exact (Notes.refl b).record _
        · exact .refl b
      rw [offerAll]
      exact hoffer.trans ih

theorem Notes.advances (h : b.Notes b') : b.Advances b' :=
  ⟨congrArg PartitionIds.reuse h.ids, Nat.le_of_eq h.controllers.symm,
    Nat.le_of_eq h.generations.symm, h.trace⟩

namespace Advances

theorem refl (b : Books) : b.Advances b := (Notes.refl b).advances

theorem trans (h : b.Advances b') (h' : b'.Advances b'') : b.Advances b'' where
  reuse := h'.reuse.trans h.reuse
  controllers := Nat.le_trans h.controllers h'.controllers
  generations := Nat.le_trans h.generations h'.generations
  trace := h.trace.trans h'.trace

theorem noted (h : b.Advances b') (h' : b'.Notes b'') : b.Advances b'' := h.trans h'.advances

theorem count (h : b.Advances b') (f : Metrics → Metrics) : b.Advances (b'.count f) :=
  ⟨h.reuse, h.controllers, h.generations, h.trace⟩

theorem updateGauge (h : b.Advances b') : b.Advances b'.updateGauge := h.count _

theorem ids (h : b.Advances b') {ids : PartitionIds} (hids : ids.reuse = b'.ids.reuse) :
    b.Advances { b' with ids } :=
  ⟨hids.trans h.reuse, h.controllers, h.generations, h.trace⟩

theorem release (h : b.Advances b') (p : UInt32) : b.Advances (b'.release p) :=
  h.ids PartitionIds.reuse_remove

theorem cleared (h : b.Advances b') : b.Advances { b' with ids := b'.ids.clear } := h.ids rfl

theorem nextController (h : b.Advances b') :
    b.Advances { b' with nextController := b'.nextController + 1 } :=
  ⟨h.reuse, Nat.le_succ_of_le h.controllers, h.generations, h.trace⟩

theorem nextGeneration (h : b.Advances b') :
    b.Advances { b' with nextGeneration := b'.nextGeneration + 1 } :=
  ⟨h.reuse, h.controllers, Nat.le_succ_of_le h.generations, h.trace⟩

end Advances

theorem keeps_claim {assigned : Option UInt32} : Keeps (Advances b) (env.claim assigned) := by
  intro b' h
  cases assigned with
  | some p =>
      rw [Setting.claim]
      split
      · next ids hadd =>
          have hreuse : (b'.ids.add p).2.reuse = b'.ids.reuse := PartitionIds.reuse_add
          rw [hadd] at hreuse
          exact h.ids hreuse
      · exact h
  | none =>
      rw [Setting.claim]
      split
      · exact h.ids PartitionIds.reuse_allocate
      · exact h

theorem Advances.closePartition (h : b.Advances b') {leaf : UInt32 × List Agent} :
    b.Advances (env.closePartition termination statementLevel leaf b').2 :=
  ((h.noted notes_stopAgents).release _).count _

theorem Advances.closeAll (h : b.Advances b') {below : List Level}
    {node : Node (Children below)} :
    b.Advances (env.closeAll termination statementLevel below node b').2 := by
  have hclose : Keeps (Advances b) (forAll (env.closePartition termination statementLevel)
      ((node.leaves below []).map fun l => (l.partition, l.running.agents))) :=
    keeps_forAll fun _ _ _ h => ends_of_state h.closePartition
  exact (hclose b' h).state.updateGauge

end Books

end EventContexts
