import EventContexts.Proofs.Settlement
import EventContexts.Proofs.Staleness

namespace EventContexts

open Act

/-- The metrics count `n` live partitions and all that the log tells about instances, and their
gauge stands at `g`. -/
structure Metrics.Tells (n g : Nat) (t : Trace) (m : Metrics) : Prop where
  partitions : m.partitionsCreated.getD 0 = m.partitionsTerminated.getD 0 + n
  gauge : m.activePartitions.getD 0 = g
  started : m.agentsStarted.getD 0 = t.started.length
  stopped : m.agentsStopped.getD 0 + m.stopFailures.getD 0 = t.stopped.length

namespace Books

def Counts (n g : Nat) (b : Books) : Prop := ∃ m ∈ b.metrics, m.Tells n g b.trace

abbrev Metered (b : Books) : Prop := b.Counts b.ids.count b.ids.count

variable {n g : Nat} {b b' : Books} {env : Setting} {path : Path} {p : UInt32} {recovering : Bool}
  {s : Statement} {termination : Option Props} {statementLevel : Bool} {xs : Staff}

namespace Counts

theorem congr (h : b.Counts n g) (hmetrics : b'.metrics = b.metrics) (htrace : b'.trace = b.trace) :
    b'.Counts n g := by
  obtain ⟨m, hm, htells⟩ := h
  exact ⟨m, hmetrics ▸ hm, htrace ▸ htells⟩

theorem record {a : Action} (h : b.Counts n g) (hstart : a.started? = none)
    (hstop : a.stopped? = none) : (b.record a).Counts n g := by
  obtain ⟨m, hm, htells⟩ := h
  refine ⟨m, hm, htells.partitions, htells.gauge, ?_, ?_⟩
  · simpa [Books.record, hstart] using htells.started
  · simpa [Books.record, hstop] using htells.stopped

theorem recount {f : Metrics → Metrics} {a : Action} {n' : Nat} (h : b.Counts n g)
    (hf : ∀ m : Metrics, m.Tells n g b.trace → (f m).Tells n' g (b.trace ++ [a])) :
    ((b.record a).count f).Counts n' g := by
  obtain ⟨m, hm, htells⟩ := h
  exact ⟨f m, Option.mem_map_of_mem f hm, hf m htells⟩

theorem created (h : b.Counts n g) : (b.count Metrics.countCreated).Counts (n + 1) g := by
  obtain ⟨m, hm, htells⟩ := h
  refine ⟨_, Option.mem_map_of_mem _ hm, ?_, htells.gauge, htells.started, htells.stopped⟩
  have hcreated := htells.partitions
  simp only [Metrics.countCreated, Metrics.tick, Option.getD_some]
  omega

theorem terminated (h : b.Counts (n + 1) g) : (b.count Metrics.countTerminated).Counts n g := by
  obtain ⟨m, hm, htells⟩ := h
  refine ⟨_, Option.mem_map_of_mem _ hm, ?_, htells.gauge, htells.started, htells.stopped⟩
  have hcreated := htells.partitions
  simp only [Metrics.countTerminated, Metrics.tick, Option.getD_some]
  omega

theorem updateGauge (h : b.Counts n g) : b.updateGauge.Counts n b.ids.count := by
  obtain ⟨m, hm, htells⟩ := h
  exact ⟨_, Option.mem_map_of_mem _ hm, htells.partitions, rfl, htells.started, htells.stopped⟩

theorem startAgent (h : b.Counts n g) : (env.startAgent path p recovering s b).2.Counts n g := by
  rw [Setting.startAgent]
  split
  · refine h.recount fun m hm => ⟨hm.partitions, hm.gauge, ?_, ?_⟩
    · simp [Metrics.countStarted, Metrics.tick, Action.started?, hm.started]
    · simpa [Metrics.countStarted, Action.stopped?] using hm.stopped
  · exact h.record rfl rfl

theorem stopAgent {a : Agent} (h : b.Counts n g) :
    (env.stopAgent termination statementLevel a b).2.Counts n g := by
  rw [Setting.stopAgent]
  split
  · refine h.recount fun m hm => ⟨hm.partitions, hm.gauge, ?_, ?_⟩
    · simpa [Metrics.countStopped, Action.started?] using hm.started
    · have hstopped := hm.stopped
      simp only [Metrics.countStopped, Metrics.tick, Option.getD_some, Trace.stopped_concat,
        Action.stopped?, Option.toList, List.length_append, List.length_singleton]
      omega
  · refine h.recount fun m hm => ⟨hm.partitions, hm.gauge, ?_, ?_⟩
    · simpa [Metrics.countStopFailure, Action.started?] using hm.started
    · have hstopped := hm.stopped
      simp only [Metrics.countStopFailure, Metrics.tick, Option.getD_some, Trace.stopped_concat,
        Action.stopped?, Option.toList, List.length_append, List.length_singleton]
      omega

theorem stopAgents {agents : List Agent} (h : b.Counts n g) :
    (env.stopAgents termination statementLevel agents b).2.Counts n g := by
  have hstop : Keeps (Counts n g) (env.stopAgents termination statementLevel agents) :=
    keeps_forAll fun _ _ _ hb => ends_of_state hb.stopAgent
  exact (hstop b h).state

theorem startAgents {ss : List Statement} {started : List Agent} (h : b.Counts n g) :
    (env.startAgents path p recovering ss started b).2.Counts n g := by
  induction ss generalizing started b with
  | nil => exact h
  | cons s rest ih =>
      have hstart : (env.startAgent path p recovering s b).2.Counts n g := h.startAgent
      simp only [Setting.startAgents]
      split
      · next a b' heq =>
          rw [heq] at hstart
          exact ih hstart
      · next e b' heq =>
          rw [heq] at hstart
          exact hstart.stopAgents

theorem offerAll {e : Event} {agents : List Agent} (h : b.Counts n g) :
    (EventContexts.offerAll e agents b).2.Counts n g := by
  induction agents generalizing b with
  | nil => exact h
  | cons a rest ih =>
      have hoffer : (a.offer e b).2.Counts n g := by
        rw [Agent.offer]
        split
        · exact h.record rfl rfl
        · exact h
      rw [EventContexts.offerAll]
      exact ih hoffer

theorem claim {assigned : Option UInt32} (h : b.Counts n g) :
    Ends (fun p b' => (p ∈ b'.ids.ids ∧ b'.ids.count = b.ids.count + 1) ∧ b'.Counts n g)
      (fun _ b' => b' = b) (env.claim assigned b) := by
  have hdone {p : UInt32} {ids : PartitionIds} (hperm : ids.ids.Perm (p :: b.ids.ids)) :
      (p ∈ ids.ids ∧ ids.count = b.ids.count + 1) ∧ { b with ids }.Counts n g := by
    refine ⟨⟨hperm.mem_iff.2 (List.mem_cons_self ..), ?_⟩, h.congr rfl rfl⟩
    have hlength := hperm.length_eq
    rwa [List.length_cons, PartitionIds.length_ids, PartitionIds.length_ids] at hlength
  cases assigned with
  | some p =>
      rw [Setting.claim]
      split
      · next hadd => exact hdone (PartitionIds.add_perm hadd)
      · rfl
  | none =>
      rw [Setting.claim]
      split
      · next hcount => exact hdone (PartitionIds.allocate_perm hcount)
      · rfl

end Counts

theorem count_release (hp : p ∈ b.ids.ids) : b.ids.count = (b.release p).ids.count + 1 := by
  have hlength := (PartitionIds.remove_perm hp).length_eq
  rwa [List.length_cons, PartitionIds.length_ids, PartitionIds.length_ids] at hlength

theorem Counts.closePartition {as : List Agent} (h : b.Counts b.ids.count g)
    (hp : p ∈ b.ids.ids) :
    (env.closePartition termination statementLevel (p, as) b).2.Counts
      (env.closePartition termination statementLevel (p, as) b).2.ids.count g := by
  let stopped := (env.stopAgents termination statementLevel as b).2
  have hids : stopped.ids = b.ids := notes_stopAgents.ids
  have hstopped : stopped.Counts b.ids.count g := h.stopAgents
  have hcount : stopped.ids.count = (stopped.release p).ids.count + 1 :=
    count_release (hids ▸ hp)
  rw [← hids, hcount] at hstopped
  have hreleased : (stopped.release p).Counts ((stopped.release p).ids.count + 1) g :=
    hstopped.congr rfl rfl
  exact hreleased.terminated

theorem Counts.closePartitions {leaves : Staff} (h : b.Counts b.ids.count g)
    (hledger : b.Ledger (leaves ++ xs) []) :
    (forAll (env.closePartition termination statementLevel) leaves b).2.Counts
      (forAll (env.closePartition termination statementLevel) leaves b).2.ids.count g := by
  let J (leaves : Staff) (b : Books) := b.Ledger (leaves ++ xs) [] ∧ b.Counts b.ids.count g
  have hclose : Triple (J leaves) (forAll (env.closePartition termination statementLevel) leaves)
      (fun _ => J []) (fun _ => J []) := by
    refine triple_forAll leaves fun leaf rest b hb => ends_of_state ?_
    have hmem : leaf.1 ∈ b.ids.ids := hb.1.ids.mem_iff.2 (List.mem_cons_self ..)
    exact ⟨hb.1.closePartition, hb.2.closePartition hmem⟩
  exact (hclose b ⟨hledger, h⟩).state.2

end Books

namespace Setting

variable {env : Setting} {below : List Level} {b : Books} {x : Staff}

theorem closeAll_metered {termination : Option Props} {statementLevel : Bool}
    {node : Node (Children below)} (h : b.Metered)
    (hledger : b.Ledger (node.children.staff ++ x) []) :
    (env.closeAll termination statementLevel below node b).2.Metered := by
  rw [node.staff_leaves []] at hledger
  exact (h.closePartitions hledger).updateGauge

/-- A partition that fails half-way gives its identifier back uncounted. -/
theorem startPartition_metered {partitions : Table Running} {path : Path} {owner : Controller}
    {r : Request} (h : b.Metered) :
    (env.startPartition owner path r (partitions, b)).2.2.Metered := by
  simp only [startPartition]
  split
  · exact h
  · have hclaim : Ends _ _ (env.claim r.assigned b) := h.claim
    split
    · next e b₁ heq =>
        obtain rfl : b₁ = b := hclaim.congr heq
        exact h
    · next p b₁ heq =>
        obtain ⟨⟨hp, hcount⟩, hb₁⟩ := hclaim.congr heq
        let start := env.startAgents (path ++ [⟨owner.level, r.key, capture r⟩]) p
          r.recovered.isSome env.statements [] b₁
        have hids : start.2.ids = b₁.ids := Books.notes_startAgents.ids
        have hstart : start.2.Counts b.ids.count b.ids.count := hb₁.startAgents
        split
        · next e b₂ heq =>
            have hb₂ : b₂ = start.2 := congrArg Prod.snd heq.symm
            have hreleased : b₂.ids.count = (b₂.release p).ids.count + 1 :=
              Books.count_release (by rwa [hb₂, hids])
            have hback : (b₂.release p).ids.count = b.ids.count := by
              rw [hb₂, hids, hcount] at hreleased
              rw [hb₂]
              omega
            rw [Books.Metered, hback, hb₂]
            exact hstart.congr rfl rfl
        · next agents b₂ heq =>
            have hb₂ : b₂ = start.2 := congrArg Prod.snd heq.symm
            have hmore : b₂.ids.count = b.ids.count + 1 := by rw [hb₂, hids, hcount]
            have hgrown {b' : Books} (hcounts : b'.Counts b.ids.count b.ids.count)
                (hids' : b'.ids = b₂.ids) {n : Nat} :
                (({ b' with nextGeneration := n }.count
                  Metrics.countCreated).updateGauge).Metered := by
              have hcreated : ({ b' with nextGeneration := n }.count Metrics.countCreated).Counts
                  (b.ids.count + 1) b.ids.count := (hcounts.congr rfl rfl).created
              rw [← hmore, ← hids'] at hcreated
              exact hcreated.updateGauge
            rw [← hb₂] at hstart
            cases r.trigger with
            | none => exact hgrown hstart rfl
            | some e => exact hgrown hstart.offerAll Books.notes_offerAll.ids

def Gauged (x : Staff) (below : List Level) (post : Post) (s : Children below × Books) : Prop :=
  Balanced x below post s ∧ s.2.Metered

theorem endChild_gauged {post : Post} {id : ControllerId} {h : Handle}
    {termination : Option Props} :
    Keeps (Gauged x below post) (env.endChild termination below id h) := by
  rintro ⟨children, b⟩ ⟨hb, hmetered⟩
  refine ends_of_state ⟨(endChild_balanced (children, b) hb).state, ?_⟩
  by_cases hlive : ∃ e ∈ children.table.entries, h = e.2.handle id e.1
  · obtain ⟨⟨k, a⟩, hmem, rfl⟩ := hlive
    let others := children.erase k
    have hopen : b.Ledger (Child.staff (k, a) ++ (others.staff ++ x)) [] := by
      rw [← List.append_assoc]
      exact Books.Ledger.perm hb
        ((Children.staff_of_mem others children.table_erase hmem).append_right x)
    rw [endChild_live hmem]
    cases below with
    | nil =>
        have hk : k ∈ b.ids.ids := hopen.ids.mem_iff.2 (List.mem_cons_self ..)
        exact (hmetered.closePartition hk).updateGauge
    | cons m below => exact closeAll_metered hmetered hopen
  · rw [endChild_stale hlive]
    exact hmetered

theorem gauged_upkeep (hids : (env.statements.map Statement.id).Nodup) :
    env.Upkeep (fun _ _ => True) Gauged := by
  have hup : env.Upkeep (fun _ _ => True) Balanced := balanced_upkeep hids
  constructor
  case suits => exact fun _ => trivial
  case number => exact fun hJ => ⟨hup.number hJ.1, hJ.2.congr rfl rfl⟩
  case partition =>
    rintro x path owner r hr ⟨partitions, b⟩ ⟨hb, hmetered⟩
    have hbalanced : Balanced x [] owner.post (env.startPartition owner path r (partitions, b)).2 :=
      (hup.partition hr (partitions, b) hb).state
    exact ends_of_state ⟨hbalanced, startPartition_metered hmetered⟩
  case sprout =>
    intro x post m below r branches b hr hJ hnew
    obtain ⟨y, hempty, hdone⟩ := hup.sprout hr hJ.1 hnew
    refine ⟨y, ⟨hempty, hJ.2.congr rfl rfl⟩, fun node b' hpost hJ' => ?_⟩
    obtain ⟨hgrown, hclosed⟩ := hdone node b' hpost hJ'.1
    exact ⟨⟨hgrown, hJ'.2⟩, hclosed, closeAll_metered hJ'.2 hJ'.1⟩
  case stop => exact endChild_gauged
  case descend =>
    intro x post m below k branch branches b hJ hmem
    obtain ⟨y, hinner, hback⟩ := hup.descend hJ.1 hmem
    exact ⟨y, ⟨hinner, hJ.2⟩, fun node b' hpost hJ' => ⟨hback node b' hpost hJ'.1, hJ'.2⟩⟩
  case offer =>
    intro x post p r partitions b e hJ hmem
    refine ⟨hup.offer hJ.1 hmem, ?_⟩
    rw [Books.Metered, Books.notes_offerAll.ids]
    exact hJ.2.offerAll

theorem startEverywhere_metered {s : Statement} {root : Node (Children below)} (h : b.Metered) :
    (env.startEverywhere s below root b).2.Metered := by
  let W (w : List Agent × Books) : Prop := w.2.ids = b.ids ∧ w.2.Counts b.ids.count b.ids.count
  have hvisit : ∀ ℓ w, W w → Ends (fun r w => r.generation = ℓ.running.generation ∧ W w)
      (fun _ => W) (env.startIn s ℓ w) := by
    rintro ℓ ⟨started, b'⟩ ⟨hids, hb⟩
    let start := env.startAgent ℓ.path ℓ.partition false s b'
    have hstart : W (started, start.2) :=
      ⟨Books.notes_startAgent.ids.trans hids, Books.Counts.startAgent hb⟩
    rw [startIn]
    split
    · next a b'' heq =>
        obtain rfl : b'' = start.2 := congrArg Prod.snd heq.symm
        exact ⟨rfl, hstart⟩
    · next e b'' heq =>
        obtain rfl : b'' = start.2 := congrArg Prod.snd heq.symm
        exact hstart
  have hready : W ([], b) := ⟨rfl, h⟩
  have hdone := Node.traverseLeaves_handles hvisit root [] hready
  have hmetered {b' : Books} (hids : b'.ids = b.ids)
      (hcounts : b'.Counts b.ids.count b.ids.count) : b'.Metered := by
    rw [Books.Metered, hids]
    exact hcounts
  simp only [startEverywhere]
  split
  · next root' started b' heq =>
      obtain ⟨-, hids, hcounts⟩ := hdone.congr heq
      exact hmetered hids hcounts
  · next e started b' heq =>
      obtain ⟨hids, hcounts⟩ := hdone.congr heq
      exact hmetered (Books.notes_stopAgents.ids.trans hids) hcounts.stopAgents

theorem stopEverywhere_metered {id : StatementId} {root : Node (Children below)} (h : b.Metered) :
    (env.stopEverywhere id below root b).2.2.Metered := by
  let W (w : Except Error Unit × Books) : Prop :=
    w.2.ids = b.ids ∧ w.2.Counts b.ids.count b.ids.count
  have hvisit : ∀ ℓ w, W w → Ends (fun r w => r.generation = ℓ.running.generation ∧ W w)
      (fun _ => W) (env.stopIn id ℓ w) := fun ℓ w hw =>
    ⟨rfl, Books.notes_stopAgents.ids.trans hw.1, Books.Counts.stopAgents hw.2⟩
  have hready : W (.ok (), b) := ⟨rfl, h⟩
  have hdone := Node.traverseLeaves_handles hvisit root [] hready
  simp only [stopEverywhere]
  split
  · next root' outcome b' heq =>
      obtain ⟨-, hids, hcounts⟩ := hdone.congr heq
      show b'.Counts b'.ids.count b'.ids.count
      rw [hids]
      exact hcounts
  · next e _ _ => exact e.elim

end Setting

namespace Context

variable {c : Context} {runtime : Runtime} {shape : Descriptor} {ss : List Statement}

theorem Settled.gauged (h : c.Settled) (hmetered : c.books.Metered) :
    c.Tends Setting.Gauged [] c.descriptor c.statements where
  descriptor := rfl
  statements := rfl
  idle hroot id := ⟨h.idle hroot id, hmetered⟩
  tree root hroot := ⟨(h.tree root hroot).1, (h.tree root hroot).2, hmetered⟩

theorem Tends.metered (h : c.Tends Setting.Gauged [] shape ss) : c.books.Metered := by
  cases hroot : c.root with
  | none => exact (h.idle hroot ⟨0⟩).2
  | some root => exact (h.tree root hroot).2.2

theorem teardown_metered (h : c.Settled) (hmetered : c.books.Metered)
    {statementLevel : Bool} : (teardown runtime statementLevel c).2.books.Metered := by
  have hclear {b : Books} (hb : b.Metered) (hledger : b.Ledger [] []) :
      { b with ids := b.ids.clear }.updateGauge.Metered := by
    have hnone : b.ids.count = 0 := by
      rw [← PartitionIds.length_ids, hledger.ids.length_eq]
      rfl
    have hcounts : { b with ids := b.ids.clear }.Counts b.ids.count b.ids.count := hb.congr rfl rfl
    rw [hnone] at hcounts
    exact hcounts.updateGauge
  simp only [teardown]
  split
  · next root hroot =>
      have hledger : c.books.Ledger (root.children.staff ++ []) [] := by
        rw [List.append_nil]
        exact h.ledger hroot
      exact hclear (Setting.closeAll_metered hmetered hledger) (Setting.closeAll_ledger hledger)
  · next hroot => exact hclear hmetered (h.ledger_idle hroot)

theorem attach_metered {strict : Prop} (h : c.Settled) (hsound : c.Sound strict)
    (hmetered : c.books.Metered) {s : Statement} : (attach runtime s c).2.books.Metered := by
  have hidle : (c.withStatement s).Settled := ⟨rfl, rfl, h.idle, h.tree⟩
  have hawaken (hnew : ¬ c.isAttached s.id = true) (hroot : c.root = none) :
      Ends _ _ (awaken runtime (c.withStatement s)) :=
    awaken_tends (fun env _ henv => Setting.gauged_upkeep (henv ▸ nodup_attached hsound hnew))
      (hidle.gauged hmetered) hroot
  have hcase := attaches runtime s c
  generalize attach runtime s c = o at hcase ⊢
  cases hcase with
  | taken | unfit => exact hmetered
  | @joined root _ _ _ _ heq | @unjoined root _ _ _ _ heq =>
      have hstart : (((c.withStatement s).setting runtime).startEverywhere s _ root
          c.books).2.Metered := Setting.startEverywhere_metered hmetered
      rw [heq] at hstart
      exact hstart
  | awoken hnew hroot heq =>
      obtain ⟨root, books, rfl, -, -, hbooks⟩ := (hawaken hnew hroot).congr heq
      exact hbooks
  | unawoken hnew hroot heq =>
      obtain ⟨root, books, rfl, hlevel, hledger, hbooks⟩ := (hawaken hnew hroot).congr heq
      rw [Setting.Balanced, List.append_nil] at hledger
      have hgrown : ({ c.withStatement s with root := some root, books } : Context).Settled :=
        settled_of_root hlevel hledger
      exact teardown_metered (hgrown.withoutStatement s.id) hbooks

theorem detach_metered (h : c.Settled) (hmetered : c.books.Metered)
    {id : StatementId} : (detach runtime id c).2.books.Metered := by
  have hcase := detaches runtime id c
  generalize detach runtime id c = o at hcase ⊢
  cases hcase with
  | unknown | idle => exact hmetered
  | last => exact teardown_metered (h.withoutStatement id) hmetered
  | @departed root _ _ _ _ _ _ heq =>
      have hstop : (((c.withoutStatement id).setting runtime).stopEverywhere id _ root
          c.books).2.2.Metered := Setting.stopEverywhere_metered hmetered
      rw [heq] at hstop
      exact hstop

theorem perform_metered {strict : Prop} (h : c.Settled) (hsound : c.Sound strict)
    (hmetered : c.books.Metered) {op : Operation} :
    (perform runtime op c).2.books.Metered := by
  have hinner (hop : op.Inner) : (perform runtime op c).2.books.Metered := by
    have hkeeps : Keeps (Tends Setting.Gauged [] c.descriptor c.statements) (perform runtime op) :=
      tends_perform (fun env _ henv => Setting.gauged_upkeep (henv ▸ hsound.ids)) hop
        fun _ _ _ => trivial
    exact (hkeeps c (h.gauged hmetered)).state.metered
  cases op with
  | attach s => exact attach_metered h hsound hmetered
  | detach id => exact detach_metered h hmetered
  | _ => exact hinner trivial

theorem metered_new {declaration : Declaration} {options : Options}
    {recovery : Option (List Assignment)} :
    (Context.new declaration options (some {}) recovery).books.Metered :=
  ⟨{}, rfl, rfl, rfl, rfl, rfl⟩

/-- The metrics balance after every operation, whatever starts and stops have failed: the partitions
created and not terminated are those the gauge shows and those whose identifiers are in use, and the
instances started and not stopped, cleanly or not, are those that run. -/
theorem metrics_balance {declaration : Declaration} {options : Options}
    {recovery : Option (List Assignment)}
    (hrun : (Context.new declaration options (some {}) recovery).Runs c) :
    ∃ m, c.books.metrics = some m ∧
      (m.partitionsCreated.getD 0 : Int) - m.partitionsTerminated.getD 0 =
        m.activePartitions.getD 0 ∧
      m.activePartitions.getD 0 = c.allocatedIds.length ∧
      (m.agentsStarted.getD 0 : Int) - m.agentsStopped.getD 0 - m.stopFailures.getD 0 =
        c.agents.length := by
  have hmetered : Reachable (fun _ => True) c ∧ c.books.Metered := by
    induction hrun with
    | refl => exact ⟨.new .., metered_new⟩
    | tail _ hstep ih =>
        obtain ⟨runtime, op, rfl⟩ := hstep
        have hsound : Sound False _ := ih.1.sound False.elim
        exact ⟨.step runtime op ih.1 trivial, perform_metered ih.1.settled hsound ih.2⟩
  obtain ⟨hreach, m, hm, htells⟩ := hmetered
  have hagents := hreach.settled.balance.2.length_eq
  rw [List.length_append, List.length_map] at hagents
  have hcreated := htells.partitions
  have hgauge := htells.gauge
  have hstarted := htells.started
  have hstopped := htells.stopped
  refine ⟨m, hm, by omega, ?_, by omega⟩
  rw [hgauge, allocatedIds, PartitionIds.length_ids]

def strained : Context :=
  let fresh := Context.new visited.declaration {} (some {})
  let attached := (perform .collecting (.attach seen) fresh).2
  let visiting := (perform .collecting (.process page) attached).2
  (perform failing (.advance 20) visiting).2

theorem strained_metrics_balance :
    strained.books.metrics.bind Metrics.partitionsTerminated = some 1 ∧
    strained.books.metrics.bind Metrics.stopFailures = some 1 ∧
    ∃ m, strained.books.metrics = some m ∧
      (m.partitionsCreated.getD 0 : Int) - m.partitionsTerminated.getD 0 =
        m.activePartitions.getD 0 ∧
      m.activePartitions.getD 0 = strained.allocatedIds.length ∧
      (m.agentsStarted.getD 0 : Int) - m.agentsStopped.getD 0 - m.stopFailures.getD 0 =
        strained.agents.length := by
  have hrun : (Context.new visited.declaration {} (some {})).Runs strained :=
    ((Relation.ReflTransGen.single ⟨_, _, rfl⟩).tail ⟨_, _, rfl⟩).tail ⟨_, _, rfl⟩
  exact ⟨by decide +kernel, by decide +kernel, metrics_balance hrun⟩

end Context

end EventContexts
