import EventContexts.Proofs.Staffing

namespace EventContexts

open Act

def Action.started? : Action → Option StartRequest
  | .started r => some r
  | _ => none

def Action.stopped? : Action → Option StartRequest
  | .stopped a _ => some a.request
  | _ => none

namespace Trace

def started (t : Trace) : List StartRequest := t.filterMap Action.started?

def stopped (t : Trace) : List StartRequest := t.filterMap Action.stopped?

/-- At any time at most one instance runs from each start request: nothing is stopped that is not
running, and nothing is started from a request whose last instance is still running. -/
def Paired (t : Trace) : Prop :=
  ∀ p : Trace, p <+: t → ∀ r, p.stopped.count r ≤ p.started.count r ∧
    p.started.count r ≤ p.stopped.count r + 1

variable {t : Trace} {a : Action} {r : StartRequest} {agent : Agent} {statementLevel : Bool}

theorem started_append {t u : Trace} : started (t ++ u) = t.started ++ u.started :=
  List.filterMap_append

theorem stopped_append {t u : Trace} : stopped (t ++ u) = t.stopped ++ u.stopped :=
  List.filterMap_append

@[simp] theorem started_concat : started (t ++ [a]) = t.started ++ a.started?.toList := by
  rw [started_append]
  cases h : a.started? <;> simp [started, h]

@[simp] theorem stopped_concat : stopped (t ++ [a]) = t.stopped ++ a.stopped?.toList := by
  rw [stopped_append]
  cases h : a.stopped? <;> simp [stopped, h]

theorem paired_nil : Paired [] := by
  intro p hp r
  rw [List.prefix_nil.1 hp]
  exact ⟨Nat.le_refl _, Nat.zero_le _⟩

theorem Paired.concat (h : t.Paired)
    (hlast : ∀ r, (stopped (t ++ [a])).count r ≤ (started (t ++ [a])).count r ∧
      (started (t ++ [a])).count r ≤ (stopped (t ++ [a])).count r + 1) : (t ++ [a]).Paired := by
  intro p hp r
  rcases List.prefix_concat_iff.1 hp with rfl | hp
  · exact hlast r
  · exact h p hp r

theorem Paired.start (h : t.Paired) (hr : t.started.count r = t.stopped.count r) :
    (t ++ [Action.started r]).Paired := by
  refine h.concat fun q => ?_
  obtain ⟨hle, hge⟩ := h t (List.prefix_refl _) q
  simp only [started_concat, stopped_concat, Action.started?, Action.stopped?, Option.toList,
    List.append_nil, List.count_append, List.count_singleton, beq_iff_eq]
  split
  · next hq => subst hq; omega
  · omega

theorem Paired.stop (h : t.Paired)
    (hr : t.stopped.count agent.request < t.started.count agent.request) :
    (t ++ [Action.stopped agent statementLevel]).Paired := by
  refine h.concat fun q => ?_
  obtain ⟨hle, hge⟩ := h t (List.prefix_refl _) q
  simp only [started_concat, stopped_concat, Action.started?, Action.stopped?, Option.toList,
    List.append_nil, List.count_append, List.count_singleton, beq_iff_eq]
  split
  · next hq => subst hq; omega
  · omega

theorem Paired.other (h : t.Paired) (hstart : a.started? = none) (hstop : a.stopped? = none) :
    (t ++ [a]).Paired := by
  refine h.concat fun q => ?_
  simpa [hstart, hstop] using h t (List.prefix_refl _) q

end Trace

abbrev Staff := List (UInt32 × List Agent)

def Staff.agents (xs : Staff) : List Agent := xs.flatMap Prod.snd

namespace Books

/-- The partitions in use are staffed with `xs`; these instances, and the loose ones on their way
in or out, are those that were started and not yet stopped. -/
structure Ledger (xs : Staff) (loose : List Agent) (b : Books) : Prop where
  ids : b.ids.ids.Perm (xs.map Prod.fst)
  housed : ∀ x ∈ xs, ∀ a ∈ x.2, a.partition = x.1
  paired : b.trace.Paired
  balance : b.trace.started.Perm (b.trace.stopped ++ (xs.agents ++ loose).map Agent.request)

variable {xs ys : Staff} {loose loose' : List Agent} {b b' : Books} {p : UInt32} {as : List Agent}
  {r : StartRequest} {env : Setting}

namespace Ledger

theorem regroup (h : b.Ledger xs loose) (hids : (xs.map Prod.fst).Perm (ys.map Prod.fst))
    (hhoused : ∀ x ∈ ys, ∀ a ∈ x.2, a.partition = x.1)
    (hagents : ((xs.agents ++ loose).map Agent.request).Perm
      ((ys.agents ++ loose').map Agent.request)) : b.Ledger ys loose' where
  ids := h.ids.trans hids
  housed := hhoused
  paired := h.paired
  balance := h.balance.trans (hagents.append_left _)

theorem perm (h : b.Ledger xs loose) (hxs : xs.Perm ys) : b.Ledger ys loose :=
  h.regroup (hxs.map _) (fun x hx => h.housed x (hxs.mem_iff.2 hx))
    (((hxs.flatMap_right _).append_right _).map _)

theorem congr (h : b.Ledger xs loose) (hids : b'.ids = b.ids) (htrace : b'.trace = b.trace) :
    b'.Ledger xs loose := by
  refine ⟨hids ▸ h.ids, h.housed, htrace ▸ h.paired, ?_⟩
  rw [htrace]
  exact h.balance

theorem clear (h : b.Ledger [] loose) : { b with ids := b.ids.clear }.Ledger [] loose :=
  ⟨List.Perm.refl _, h.housed, h.paired, h.balance⟩

theorem record {a : Action} (h : b.Ledger xs loose) (hstart : a.started? = none)
    (hstop : a.stopped? = none) : (b.record a).Ledger xs loose := by
  refine ⟨h.ids, h.housed, h.paired.other hstart hstop, ?_⟩
  simpa [Books.record, hstart, hstop] using h.balance

theorem not_mem (h : b.Ledger ((p, as) :: xs) loose) : p ∉ xs.map Prod.fst :=
  (List.nodup_cons.1 (h.ids.nodup_iff.1 b.ids.nodup_ids)).1

theorem settle (h : b.Ledger ((p, []) :: xs) as) (has : ∀ a ∈ as, a.partition = p) :
    b.Ledger ((p, as) :: xs) [] := by
  refine h.regroup (List.Perm.refl _) (List.forall_mem_cons.2 ⟨has, ?_⟩) ?_
  · exact fun x hx => h.housed x (List.mem_cons_of_mem _ hx)
  · refine List.Perm.map _ ?_
    simpa [Staff.agents] using List.perm_append_comm

theorem part {inside outside : List Agent} (h : b.Ledger ((p, as) :: xs) [])
    (has : as.Perm (inside ++ outside)) : b.Ledger ((p, inside) :: xs) outside := by
  refine h.regroup (List.Perm.refl _) (List.forall_mem_cons.2 ⟨fun a ha => ?_, ?_⟩) ?_
  · exact h.housed (p, as) (List.mem_cons_self ..) a
      (has.mem_iff.2 (List.mem_append_left _ ha))
  · exact fun x hx => h.housed x (List.mem_cons_of_mem _ hx)
  · refine List.Perm.map _ ?_
    simp only [Staff.agents, List.flatMap_cons, List.append_nil, List.append_assoc]
    refine (has.append_right _).trans ?_
    rw [List.append_assoc]
    exact List.perm_append_comm.append_left _

theorem evaluate {e : Event} (h : b.Ledger ((p, as) :: xs) loose) :
    b.Ledger ((p, as.map fun a => a.evaluate e) :: xs) loose := by
  refine h.regroup (List.Perm.refl _) (List.forall_mem_cons.2 ⟨?_, ?_⟩) ?_
  · intro a' ha'
    obtain ⟨a, ha, rfl⟩ := List.mem_map.1 ha'
    rw [Agent.partition, Agent.request_evaluate]
    exact h.housed (p, as) (List.mem_cons_self ..) a ha
  · exact fun x hx => h.housed x (List.mem_cons_of_mem _ hx)
  · simp [Staff.agents, Function.comp_def]

theorem release (h : b.Ledger ((p, []) :: xs) loose) : (b.release p).Ledger xs loose := by
  have hmem : p ∈ b.ids.ids := h.ids.mem_iff.2 (List.mem_cons_self ..)
  have hperm : b.ids.ids.Perm (p :: (b.release p).ids.ids) := PartitionIds.remove_perm hmem
  exact ⟨(hperm.symm.trans h.ids).cons_inv,
    fun x hx => h.housed x (List.mem_cons_of_mem _ hx), h.paired, h.balance⟩

theorem claim (h : b.Ledger xs loose) (assigned : Option UInt32) :
    Ends (fun p b' => b'.Ledger ((p, []) :: xs) loose) (fun _ b' => b'.Ledger xs loose)
      (env.claim assigned b) := by
  have hdone {p : UInt32} {ids : PartitionIds} (hperm : ids.ids.Perm (p :: b.ids.ids)) :
      { b with ids }.Ledger ((p, []) :: xs) loose :=
    ⟨hperm.trans (h.ids.cons p), List.forall_mem_cons.2 ⟨by simp, h.housed⟩, h.paired, h.balance⟩
  cases assigned with
  | some p =>
      rw [Setting.claim]
      split
      · next hadd => exact hdone (PartitionIds.add_perm hadd)
      · exact h
  | none =>
      rw [Setting.claim]
      split
      · next hcount => exact hdone (PartitionIds.allocate_perm hcount)
      · exact h

theorem count_started (h : b.Ledger xs loose) (r : StartRequest) :
    b.trace.started.count r =
      b.trace.stopped.count r + ((xs.agents ++ loose).map Agent.request).count r := by
  rw [h.balance.count_eq, List.count_append]

theorem idle_of_not_mem (h : b.Ledger xs loose)
    (hr : ∀ a ∈ xs.agents ++ loose, a.request ≠ r) :
    b.trace.started.count r = b.trace.stopped.count r := by
  have hnone : ((xs.agents ++ loose).map Agent.request).count r = 0 := by
    refine List.count_eq_zero.2 fun hmem => ?_
    obtain ⟨a, ha, heq⟩ := List.mem_map.1 hmem
    exact hr a ha heq
  rw [h.count_started r, hnone, Nat.add_zero]

theorem startAgent {path : Path} {recovering : Bool} {s : Statement} (h : b.Ledger xs loose)
    (hidle : b.trace.started.count (env.startRequest path p recovering s) =
      b.trace.stopped.count (env.startRequest path p recovering s)) :
    Ends (fun a b' => a.request = env.startRequest path p recovering s ∧
        b'.Ledger xs (loose ++ [a]))
      (fun _ b' => b'.Ledger xs loose) (env.startAgent path p recovering s b) := by
  rw [Setting.startAgent]
  split
  · refine ⟨rfl, h.ids, h.housed, h.paired.start hidle, ?_⟩
    simpa [Books.record, Books.count, Action.started?, Action.stopped?] using
      h.balance.append_right [env.startRequest path p recovering s]
  · exact h.record rfl rfl

theorem stopAgent {termination : Option Props} {statementLevel : Bool} {a : Agent}
    (h : b.Ledger xs (a :: loose)) :
    (env.stopAgent termination statementLevel a b).2.Ledger xs loose := by
  have hrequest : (a.withTermination termination).request = a.request := by
    cases termination <;> rfl
  have hrunning : b.trace.stopped.count a.request < b.trace.started.count a.request := by
    rw [h.count_started]
    have hpos : 0 < ((xs.agents ++ a :: loose).map Agent.request).count a.request :=
      List.count_pos_iff.2 (List.mem_map_of_mem (by simp))
    omega
  have hdone : (b.record (.stopped (a.withTermination termination) statementLevel)).Ledger
      xs loose := by
    refine ⟨h.ids, h.housed, h.paired.stop (hrequest ▸ hrunning), ?_⟩
    simp only [Books.record, Trace.started_concat, Trace.stopped_concat, Action.started?,
      Action.stopped?, Option.toList, List.append_nil, hrequest, List.append_assoc]
    refine h.balance.trans (List.Perm.append_left _ ?_)
    simp only [List.map_append, List.map_cons]
    exact List.perm_middle
  rw [Setting.stopAgent]
  split
  · exact hdone.congr rfl rfl
  · exact hdone.congr rfl rfl

theorem stopAgents {termination : Option Props} {statementLevel : Bool}
    (h : b.Ledger xs (as ++ loose)) :
    (env.stopAgents termination statementLevel as b).2.Ledger xs loose := by
  let J (as : List Agent) (b : Books) := b.Ledger xs (as ++ loose)
  have hstop : Triple (J as) (forAll (env.stopAgent termination statementLevel) as)
      (fun _ => J []) (fun _ => J []) :=
    triple_forAll as fun a rest b hb => ends_of_state (stopAgent hb)
  exact (hstop b h).state

theorem offerAll {e : Event} (agents : List Agent) (h : b.Ledger xs loose) :
    (EventContexts.offerAll e agents b).2.Ledger xs loose := by
  induction agents generalizing b with
  | nil => exact h
  | cons a rest ih =>
      rw [EventContexts.offerAll]
      apply ih
      rw [Agent.offer]
      split
      · exact h.record rfl rfl
      · exact h

/-- The instances of a new partition start one after the other. None runs from their requests yet:
the partition is new, and each statement is started once. -/
theorem startAgents {path : Path} {recovering : Bool} {ss : List Statement}
    {started : List Agent} (h : b.Ledger ((p, []) :: xs) started)
    (hids : (ss.map Statement.id).Nodup)
    (hstarted : ∀ a ∈ started, a.partition = p ∧ a.statement.id ∉ ss.map Statement.id) :
    Ends (fun agents b' => b'.Ledger ((p, agents) :: xs) [])
      (fun _ b' => b'.Ledger ((p, []) :: xs) [])
      (env.startAgents path p recovering ss started b) := by
  induction ss generalizing started b with
  | nil => exact h.settle fun a ha => (hstarted a ha).1
  | cons s rest ih =>
      obtain ⟨hs, hrest⟩ := List.nodup_cons.1 hids
      have hidle := h.idle_of_not_mem (r := env.startRequest path p recovering s) <| by
        intro a ha heq
        rcases List.mem_append.1 ha with ha | ha
        · obtain ⟨x, hx, hax⟩ := List.mem_flatMap.1 ha
          rcases List.mem_cons.1 hx with rfl | hx
          · cases hax
          · refine h.not_mem ?_
            have hp : x.1 = p := by
              rw [← h.housed x (List.mem_cons_of_mem _ hx) a hax, Agent.partition, heq]
              rfl
            exact hp ▸ List.mem_map_of_mem hx
        · refine (hstarted a ha).2 ?_
          rw [Agent.statement, heq]
          exact List.mem_cons_self ..
      have hstart := h.startAgent hidle
      simp only [Setting.startAgents]
      split
      · next a b' heq =>
          obtain ⟨hrequest, hb'⟩ := hstart.congr heq
          refine ih hb' hrest fun a' ha' => ?_
          rcases List.mem_append.1 ha' with ha' | ha'
          · exact ⟨(hstarted a' ha').1, fun hmem =>
              (hstarted a' ha').2 (List.mem_cons_of_mem _ hmem)⟩
          · obtain rfl := List.mem_singleton.1 ha'
            rw [Agent.partition, Agent.statement, hrequest]
            exact ⟨rfl, hs⟩
      · next e b' heq =>
          have hb' : b'.Ledger ((p, []) :: xs) (started ++ []) := by
            rw [List.append_nil]
            exact hstart.congr heq
          exact hb'.stopAgents

theorem closePartition {termination : Option Props} {statementLevel : Bool}
    (h : b.Ledger ((p, as) :: xs) []) :
    (env.closePartition termination statementLevel (p, as) b).2.Ledger xs [] := by
  have hout : b.Ledger ((p, []) :: xs) (as ++ []) := by
    rw [List.append_nil]
    exact h.part (List.Perm.refl _)
  exact hout.stopAgents.release.congr rfl rfl

theorem closePartitions {termination : Option Props} {statementLevel : Bool} {leaves : Staff}
    (h : b.Ledger (leaves ++ xs) []) :
    (forAll (env.closePartition termination statementLevel) leaves b).2.Ledger xs [] := by
  let J (leaves : Staff) (b : Books) := b.Ledger (leaves ++ xs) []
  have hclose : Triple (J leaves) (forAll (env.closePartition termination statementLevel) leaves)
      (fun _ => J []) (fun _ => J []) :=
    triple_forAll leaves fun _ rest b hb => ends_of_state (closePartition hb)
  exact (hclose b h).state

end Ledger

end Books

end EventContexts
