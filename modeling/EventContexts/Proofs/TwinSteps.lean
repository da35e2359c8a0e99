import EventContexts.Proofs.Twins
/-!
Under a runtime that never fails, nothing that is done to a tree depends on the instances of the
statements in which it differs from its twin.
-/

namespace EventContexts

open Act

namespace Setting

variable {keep : StatementId → Bool} {env env' : Setting} {below : List Level} {path : Path}
  {termination : Option Props} {statementLevel : Bool} {b b' : Books}

/-- Two contexts that differ in some statements only, at the same time and under the same runtime,
which never fails. -/
structure Twins (keep : StatementId → Bool) (env env' : Setting) : Prop where
  descriptor : env.descriptor = env'.descriptor
  limit : env.limit = env'.limit
  statements : (env.statements.filter fun s => keep s.id) =
    env'.statements.filter fun s => keep s.id
  now : env.now = env'.now
  runtime : env.runtime = env'.runtime
  unfailing : env.runtime.Unfailing

theorem Twins.unfailing' (h : env.Twins keep env') : env'.runtime.Unfailing :=
  h.runtime ▸ h.unfailing

theorem stopAgent_tame {a : Agent} (h : a.Tame env.runtime) :
    (env.stopAgent termination statementLevel a b).1 = .ok () := by
  have hrequest : (a.withTermination termination).request = a.request := by
    cases termination <;> rfl
  have hfailure : (a.withTermination termination).stopFailure = a.stopFailure := by
    cases termination <;> rfl
  simp only [stopAgent, h b.trace _ statementLevel hrequest hfailure]

theorem stopAgents_tame {agents : List Agent} (h : ∀ a ∈ agents, a.Tame env.runtime) :
    (env.stopAgents termination statementLevel agents b).1 = .ok () := by
  induction agents generalizing b with
  | nil => rfl
  | cons a rest ih =>
      obtain ⟨ha, hrest⟩ := List.forall_mem_cons.1 h
      simp only [stopAgents, forAll, stopAgent_tame ha]
      exact ih hrest

theorem alike_stopAgents (h : env.Twins keep env') {agents agents' : List Agent}
    (htame : ∀ a ∈ agents, a.Tame env.runtime) (htame' : ∀ a ∈ agents', a.Tame env.runtime) :
    Alike Books.Twins (env.stopAgents termination statementLevel agents)
      (env'.stopAgents termination statementLevel agents') := by
  rw [h.runtime] at htame'
  refine ⟨fun hb => ⟨?_, hb.notes Books.notes_stopAgents Books.notes_stopAgents⟩⟩
  rw [stopAgents_tame htame, stopAgents_tame htame']

theorem alike_closePartition (h : env.Twins keep env') {p : UInt32} {agents agents' : List Agent}
    (htame : ∀ a ∈ agents, a.Tame env.runtime) (htame' : ∀ a ∈ agents', a.Tame env.runtime) :
    Alike Books.Twins (env.closePartition termination statementLevel (p, agents))
      (env'.closePartition termination statementLevel (p, agents')) := by
  refine ⟨fun hb => ?_⟩
  obtain ⟨hresult, hbooks⟩ := (alike_stopAgents h htame htame').run hb
  exact ⟨hresult, (hbooks.release p).count _ _⟩

theorem alike_closeAll (h : env.Twins keep env') {n n' : Node (Children below)}
    (hn : n.Rel (Children.Twins keep env.runtime below) n') :
    Alike Books.Twins (env.closeAll termination statementLevel below n)
      (env'.closeAll termination statementLevel below n') := by
  have hleaves : Alike Books.Twins
      (forAll (env.closePartition termination statementLevel)
        ((n.leaves below []).map fun l => (l.partition, l.running.agents)))
      (forAll (env'.closePartition termination statementLevel)
        ((n'.leaves below []).map fun l => (l.partition, l.running.agents))) := by
    refine alike_forAll₂ (List.forall₂_map_left_iff.2 (List.forall₂_map_right_iff.2 ?_))
    refine (Node.leaves_twins hn []).imp fun ℓ ℓ' hℓ => ?_
    rw [hℓ.partition]
    exact alike_closePartition h hℓ.running.tame hℓ.running.tame'
  refine ⟨fun hb => ?_⟩
  obtain ⟨hresult, hbooks⟩ := hleaves.run hb
  exact ⟨hresult, hbooks.count _ _⟩

theorem alike_endChild (h : env.Twins keep env') (id : ControllerId) (handle : Handle) :
    Alike (EventContexts.Twins keep env.runtime below) (env.endChild termination below id handle)
      (env'.endChild termination below id handle) := by
  constructor
  rintro ⟨children, b⟩ ⟨children', b'⟩ ⟨hc : children.Twins keep env.runtime below children', hb⟩
  have hholds : holds below children id handle = holds below children' id handle := holds_twins hc
  cases hlive : holds below children' id handle with
  | false => cases below <;> simp only [endChild, hholds, hlive] <;> exact ⟨trivial, hc, hb⟩
  | true =>
      cases below with
      | nil =>
          have hpartitions : Table.Rel (Running.Twins keep env.runtime) children children' := hc
          simp only [endChild, hholds, hlive]
          rcases hpartitions.get? handle.id with ⟨ht, hu⟩ | ⟨r, r', ht, hu, hr⟩
          · simp only [ht, hu]
            exact ⟨trivial, hc, hb⟩
          · simp only [ht, hu]
            obtain ⟨hresult, hbooks⟩ := (alike_closePartition h hr.tame hr.tame').run hb
            exact ⟨hresult, hpartitions.erase handle.id, hbooks.count _ _⟩
      | cons l below =>
          have hbranches : Table.Rel (Branch.Rel (Children.Twins keep env.runtime below)) children
            children' := hc
          simp only [endChild, hholds, hlive]
          rcases hbranches.get? handle.id with ⟨ht, hu⟩ | ⟨branch, branch', ht, hu, hbranch⟩
          · simp only [ht, hu]
            exact ⟨trivial, hc, hb⟩
          · simp only [ht, hu]
            obtain ⟨hresult, hbooks⟩ := (alike_closeAll h hbranch.node).run hb
            exact ⟨hresult, hbranches.erase handle.id, hbooks⟩

theorem alike_claim (h : env.Twins keep env') (assigned : Option UInt32) :
    Alike Books.Twins (env.claim assigned) (env'.claim assigned) := by
  refine ⟨fun {b b'} hb => ?_⟩
  cases assigned with
  | some p =>
      simp only [claim, hb.ids]
      split
      · exact ⟨rfl, rfl, hb.controllers, hb.generations⟩
      · exact ⟨rfl, hb⟩
  | none =>
      simp only [claim, hb.ids, h.descriptor]
      split
      · exact ⟨rfl, rfl, hb.controllers, hb.generations⟩
      · exact ⟨rfl, hb⟩

def fresh (env : Setting) (path : Path) (p : UInt32) (recovering : Bool) (s : Statement) : Agent :=
  { request := env.startRequest path p recovering s }

theorem startAgent_unfailing (h : env.runtime.Unfailing) (path : Path) (p : UInt32)
    (recovering : Bool) (s : Statement) (b : Books) : ∃ a b',
      env.startAgent path p recovering s b = (.ok a, b') ∧ b.Notes b' ∧
      a.plain = env.fresh path p recovering s ∧ a.Tame env.runtime := by
  obtain ⟨failure, hstart, hstops⟩ := h b.trace (env.startRequest path p recovering s)
  have hnotes : b.Notes (env.startAgent path p recovering s b).2 := Books.notes_startAgent
  simp only [startAgent, hstart] at hnotes ⊢
  exact ⟨_, _, rfl, hnotes, rfl, hstops⟩

theorem startAgents_unfailing (h : env.runtime.Unfailing) (path : Path) (p : UInt32)
    (recovering : Bool) (ss : List Statement) (started : List Agent) (b : Books) : ∃ agents b',
      env.startAgents path p recovering ss started b = (.ok (started ++ agents), b') ∧
      b.Notes b' ∧ agents.map Agent.plain = ss.map (env.fresh path p recovering) ∧
      ∀ a ∈ agents, a.Tame env.runtime := by
  induction ss generalizing started b with
  | nil => exact ⟨[], b, by rw [List.append_nil]; rfl, .refl b, rfl, fun _ h => nomatch h⟩
  | cons s rest ih =>
      obtain ⟨a, b₁, hstart, hnotes, hplain, htame⟩ := startAgent_unfailing h path p recovering s b
      obtain ⟨agents, b₂, hrest, hnotes', hplains, htames⟩ := ih (started ++ [a]) b₁
      refine ⟨a :: agents, b₂, ?_, hnotes.trans hnotes', ?_,
        List.forall_mem_cons.2 ⟨htame, htames⟩⟩
      · rw [← List.append_cons] at hrest
        simp only [startAgents, hstart, hrest]
      · rw [List.map_cons, List.map_cons, hplain, hplains]

theorem startPartition_unfailing (hunfailing : env.runtime.Unfailing) (hlimit : env.limit = none)
    (owner : Controller) (path : Path) {r : Request} (partitions : Table Running) {e : Event}
    {p : UInt32} {b₁ : Books} (htrigger : r.trigger = some e) (hrecovered : r.recovered = none)
    (hclaim : env.claim r.assigned b = (.ok p, b₁)) :
    ∃ agents generation b', env.startPartition owner path r (partitions, b) =
        (.ok (.leaf owner.id p generation),
          (partitions.insert p ⟨generation, r.key, capture r, agents⟩, b')) ∧
      b'.ids = b₁.ids ∧ (∀ a ∈ agents, a.Tame env.runtime) ∧
      agents.map Agent.plain = env.statements.map fun s =>
        (env.fresh (path ++ [⟨owner.level, r.key, capture r⟩]) p false s).evaluate e := by
  obtain ⟨agents, b₂, hstart, hnotes, hplain, htame⟩ := startAgents_unfailing hunfailing
    (path ++ [⟨owner.level, r.key, capture r⟩]) p false env.statements [] b₁
  have hoffered : b₁.Notes (offerAll e agents b₂).2 := hnotes.trans Books.notes_offerAll
  let offered := (offerAll e agents b₂).2
  let begun : Books := { offered with nextGeneration := offered.nextGeneration + 1 }
  refine ⟨agents.map fun a => a.evaluate e, offered.nextGeneration,
    (begun.count Metrics.countCreated).updateGauge, ?_, hoffered.ids, ?_, ?_⟩
  · have hrecovering : r.recovered.isSome = false := by rw [hrecovered]; rfl
    simp only [startPartition, hlimit, Option.any_none, Bool.false_eq_true, if_false, hclaim,
      hrecovering, hstart, List.nil_append, htrigger, fst_offerAll]
    rfl
  · exact List.forall_mem_map.2 fun a ha => (htame a ha).evaluate e
  · rw [Agent.map_plain_evaluate, hplain, List.map_map]
    rfl

theorem Twins.fresh (h : env.Twins keep env') : env.fresh = env'.fresh := by
  funext path p recovering s
  rw [Setting.fresh, Setting.fresh, startRequest, startRequest, h.descriptor]

theorem Twins.running (h : env.Twins keep env') {path : Path} {p : UInt32} {recovering : Bool}
    {generation : Nat} {key : Key} {properties : Props} {agents agents' : List Agent}
    (hplain : agents.map Agent.plain = env.statements.map (env.fresh path p recovering))
    (hplain' : agents'.map Agent.plain = env'.statements.map (env'.fresh path p recovering))
    (htame : ∀ a ∈ agents, a.Tame env.runtime) (htame' : ∀ a ∈ agents', a.Tame env'.runtime) :
    Running.Twins keep env.runtime { generation, key, properties, agents }
      { generation, key, properties, agents := agents' } := by
  have hkept (ss : List Statement) :
      (ss.map (env'.fresh path p recovering)).filter (fun a => keep a.statement.id) =
        (ss.filter fun s => keep s.id).map (env'.fresh path p recovering) := by
    rw [List.filter_map]
    rfl
  refine ⟨?_, htame, h.runtime ▸ htame'⟩
  simp only [Running.share, hplain, hplain', h.fresh, hkept, h.statements]

theorem alike_startPartition (h : env.Twins keep env') (node : Controller) (path : Path)
    (r : Request) : Alike (EventContexts.Twins keep env.runtime [])
      (env.startPartition node path r) (env'.startPartition node path r) := by
  constructor
  rintro ⟨partitions, b⟩ ⟨partitions', b'⟩
    ⟨hc : Table.Rel (Running.Twins keep env.runtime) partitions partitions', hb : b.Twins b'⟩
  simp only [startPartition, h.limit, hb.ids, h.descriptor]
  cases hfull : env'.limit.any fun limit => decide (limit ≤ b'.ids.count) with
  | true =>
      simp only [if_true]
      exact ⟨trivial, hc, hb⟩
  | false =>
      simp only [Bool.false_eq_true, if_false]
      refine (alike_claim h r.assigned).elim hb ?_ fun e b₁ b₁' hclaimed => ⟨rfl, hc, hclaimed⟩
      intro p b₁ b₁' hclaimed
      let path' : Path := path ++ [⟨node.level, r.key, capture r⟩]
      obtain ⟨agents, b₂, hstart, hnotes, hplain, htame⟩ := startAgents_unfailing h.unfailing
        path' p r.recovered.isSome env.statements [] b₁
      obtain ⟨agents', b₂', hstart', hnotes', hplain', htame'⟩ := startAgents_unfailing
        h.unfailing' path' p r.recovered.isSome env'.statements [] b₁'
      simp only [path', hstart, hstart', List.nil_append]
      have hbooks : b₂.Twins b₂' := hclaimed.notes hnotes hnotes'
      have hrunning (generation : Nat) : Running.Twins keep env.runtime
          { generation, key := r.key, properties := capture r, agents }
          { generation, key := r.key, properties := capture r, agents := agents' } :=
        h.running hplain hplain' htame htame'
      cases r.trigger with
      | none =>
          simp only [hbooks.generations]
          exact ⟨trivial, hc.insert p (hrunning _), hbooks.ids, hbooks.controllers, rfl⟩
      | some e =>
          have hoffered : (offerAll e agents b₂).2.Twins (offerAll e agents' b₂').2 :=
            hbooks.notes Books.notes_offerAll Books.notes_offerAll
          simp only [hoffered.generations, fst_offerAll]
          exact ⟨trivial, hc.insert p ((hrunning _).evaluate e), hoffered.ids,
            hoffered.controllers, rfl⟩

theorem alike_startChild (h : env.Twins keep env') (below : List Level) (path : Path)
    (node : Controller) (r : Request) : Alike (EventContexts.Twins keep env.runtime below)
      (env.startChild below path node r) (env'.startChild below path node r) := by
  induction below generalizing path node r with
  | nil => exact alike_startPartition h node path r
  | cons l below ih =>
      constructor
      rintro ⟨branches, b⟩ ⟨branches', b'⟩ ⟨hc : Table.Rel (Branch.Rel
        (Children.Twins keep env.runtime below)) branches branches', hb : b.Twins b'⟩
      simp only [startChild, hc.contains, hb.controllers, h.now]
      let next (b : Books) : Books := { b with nextController := b'.nextController + 1 }
      have hnext : (next b).Twins (next b') := ⟨hb.ids, rfl, hb.generations⟩
      cases Table.contains branches' r.path with
      | true =>
          simp only [if_true]
          exact ⟨trivial, hc, hnext⟩
      | false =>
          simp only [Bool.false_eq_true, if_false]
          let fresh := Controller.create l ⟨b'.nextController⟩ r.path (node.nesting + 1)
          let path' : Path := path ++ [⟨node.level, r.key, r.properties⟩]
          have hlife : (env.lifecycle below path' fresh).Alike
              (EventContexts.Twins keep env.runtime below) (env'.lifecycle below path' fresh) :=
            ⟨ih path' fresh, alike_endChild h fresh.id⟩
          have hactivate := Controller.alike_activate (a := env'.activation r) hlife
          have hstart : Beside (EventContexts.Twins keep env.runtime below)
              (fresh, (Children.empty below, next b)) (fresh, (Children.empty below, next b')) :=
            ⟨rfl, Children.twins_empty, hnext⟩
          refine hactivate.elim hstart ?_ ?_
          · rintro ⟨⟩ ⟨controller, grown, b₁⟩ ⟨_, grown', b₁'⟩ ⟨rfl, hgrown, hb₁⟩
            have hbranch : Branch.Rel (Children.Twins keep env.runtime below)
                ⟨r.key, r.properties, ⟨controller, grown⟩⟩
                ⟨r.key, r.properties, ⟨controller, grown'⟩⟩ := ⟨rfl, rfl, rfl, hgrown⟩
            exact ⟨rfl, hc.insert r.path hbranch, hb₁⟩
          · rintro e ⟨controller, grown, b₁⟩ ⟨_, grown', b₁'⟩ ⟨rfl, hgrown, hb₁⟩
            have hnode : Node.Rel (Children.Twins keep env.runtime below) ⟨controller, grown⟩
                ⟨controller, grown'⟩ := ⟨rfl, hgrown⟩
            exact ⟨rfl, hc, ((alike_closeAll h hnode).run hb₁).2⟩

theorem alike_lifecycle (h : env.Twins keep env') (path : Path) (node : Controller) :
    (env.lifecycle below path node).Alike (EventContexts.Twins keep env.runtime below)
      (env'.lifecycle below path node) :=
  ⟨alike_startChild h below path node, alike_endChild h node.id⟩

section nodes

variable {α : Type} {runtime : Runtime}

theorem alike_drive (h : env.Twins keep env') (path : Path)
    {x : Lifecycle (Children below × Books) → Act (Controller × (Children below × Books)) α}
    (hx : ∀ {life life' : Lifecycle (Children below × Books)},
      life.Alike (EventContexts.Twins keep env.runtime below) life' →
      Alike (Beside (EventContexts.Twins keep env.runtime below)) (x life) (x life')) :
    Alike (Node.Twins keep env.runtime below) (env.drive below path x)
      (env'.drive below path x) := by
  constructor
  rintro ⟨⟨c, children⟩, b⟩ ⟨⟨_, children'⟩, b'⟩ ⟨⟨rfl, hc⟩, hb⟩
  obtain ⟨hresult, hcontroller, hc', hb'⟩ := (hx (alike_lifecycle h path c)).run
    (s := (c, (children, b))) (t := (c, (children', b'))) ⟨rfl, hc, hb⟩
  exact ⟨hresult, ⟨hcontroller, hc'⟩, hb'⟩

theorem alike_offerPartition (e : Event) (handle : Handle) :
    Alike (Node.Twins keep runtime []) (offerPartition e handle) (offerPartition e handle) := by
  constructor
  rintro ⟨⟨c, children⟩, b⟩ ⟨⟨_, children'⟩, b'⟩
    ⟨⟨rfl, hc : Table.Rel (Running.Twins keep runtime) children children'⟩, hb⟩
  have hholds : holds [] children c.id handle = holds [] children' c.id handle := holds_twins hc
  cases hlive : holds [] children' c.id handle with
  | false =>
      simp only [offerPartition, hholds, hlive]
      exact ⟨trivial, ⟨rfl, hc⟩, hb⟩
  | true =>
      simp only [offerPartition, hholds, hlive]
      rcases hc.get? handle.id with ⟨ht, hu⟩ | ⟨r, r', ht, hu, hr⟩
      · simp only [ht, hu]
        exact ⟨trivial, ⟨rfl, hc⟩, hb⟩
      · simp only [ht, hu, fst_offerAll]
        exact ⟨trivial, ⟨rfl, hc.insert handle.id (hr.evaluate e)⟩,
          hb.notes Books.notes_offerAll Books.notes_offerAll⟩

theorem alike_inBranch {l : Level}
    {visit visit' : Path → Act (Node (Children below) × Books) Unit}
    (hvisit : ∀ path, Alike (Node.Twins keep runtime below) (visit path) (visit' path))
    (path : Path) (handle : Handle) : Alike (Node.Twins keep runtime (l :: below))
      (inBranch visit path handle) (inBranch visit' path handle) := by
  constructor
  rintro ⟨⟨c, children⟩, b⟩ ⟨⟨_, children'⟩, b'⟩ ⟨⟨rfl, hc : Table.Rel (Branch.Rel
    (Children.Twins keep runtime below)) children children'⟩, hb⟩
  have hholds : holds (l :: below) children c.id handle =
      holds (l :: below) children' c.id handle := holds_twins hc
  cases hlive : holds (l :: below) children' c.id handle with
  | false =>
      simp only [inBranch, hholds, hlive]
      exact ⟨trivial, ⟨rfl, hc⟩, hb⟩
  | true =>
      simp only [inBranch, hholds, hlive]
      rcases hc.get? handle.id with ⟨ht, hu⟩ | ⟨branch, branch', ht, hu, hbranch⟩
      · simp only [ht, hu]
        exact ⟨trivial, ⟨rfl, hc⟩, hb⟩
      · simp only [ht, hu, Node.step, hbranch.key, hbranch.properties]
        obtain ⟨hresult, hnode, hbooks⟩ := (hvisit _).run (s := (branch.node, b))
          (t := (branch'.node, b')) ⟨hbranch.node, hb⟩
        exact ⟨hresult, ⟨rfl, hc.insert handle.id ⟨rfl, rfl, hnode⟩⟩, hbooks⟩

theorem alike_offer (h : env.Twins keep env') (e : Event) (below : List Level) (path : Path) :
    Alike (Node.Twins keep env.runtime below) (env.offer e below path)
      (env'.offer e below path) := by
  induction below generalizing path with
  | nil =>
      refine (alike_drive h path Controller.alike_route).bind fun targets => ?_
      exact alike_forEach (alike_offerPartition e) targets
  | cons l below ih =>
      refine (alike_drive h path Controller.alike_route).bind fun targets => ?_
      exact alike_forEach (alike_inBranch ih path) targets

theorem alike_startAt (h : env.Twins keep env') (r : Request) (below : List Level) (path : Path) :
    Alike (Node.Twins keep env.runtime below) (env.startAt r below path)
      (env'.startAt r below path) := by
  constructor
  rintro ⟨⟨c, children⟩, b⟩ ⟨⟨_, children'⟩, b'⟩ ⟨⟨rfl, hc⟩, hb⟩
  obtain ⟨hresult, hc', hb'⟩ := (alike_startChild h below path c r).run
    (s := (children, b)) (t := (children', b')) ⟨hc, hb⟩
  exact ⟨hresult, ⟨rfl, hc'⟩, hb'⟩

theorem alike_endAt (h : env.Twins keep env') (handle : Handle) (termination : Option Props)
    (below : List Level) : Alike (Node.Twins keep env.runtime below)
      (env.endAt handle termination below) (env'.endAt handle termination below) := by
  constructor
  rintro ⟨⟨c, children⟩, b⟩ ⟨⟨_, children'⟩, b'⟩ ⟨⟨rfl, hc⟩, hb⟩
  have hholds : holds below children c.id handle = holds below children' c.id handle :=
    holds_twins hc
  simp only [endAt, hholds]
  cases holds below children' c.id handle with
  | false => exact ⟨rfl, ⟨rfl, hc⟩, hb⟩
  | true =>
      obtain ⟨hresult, hc', hb'⟩ := (alike_endChild h c.id handle).run
        (s := (children, b)) (t := (children', b')) ⟨hc, hb⟩
      exact ⟨hresult, ⟨rfl, hc'⟩, hb'⟩

end nodes

end Setting

namespace Setting

variable {keep : StatementId → Bool} {env env' : Setting} {below : List Level} {s : Statement}
  {id : StatementId} {n n' : Node (Children below)} {b b' : Books}

theorem startIn_unfailing (h : env.runtime.Unfailing) (s : Statement) (ℓ : Leaf)
    (w : List Agent × Books) : ∃ a v,
      env.startIn s ℓ w = (.ok { ℓ.running with agents := ℓ.running.agents ++ [a] }, v) ∧
      w.2.Notes v.2 ∧ a.plain = env.fresh ℓ.path ℓ.partition false s ∧ a.Tame env.runtime := by
  obtain ⟨a, b', hstart, hnotes, hplain, htame⟩ :=
    startAgent_unfailing h ℓ.path ℓ.partition false s w.2
  refine ⟨a, (w.1 ++ [a], b'), ?_, hnotes, hplain, htame⟩
  simp only [startIn, hstart]

theorem stopIn_tame {ℓ : Leaf} (h : ∀ a ∈ ℓ.running.agents, a.Tame env.runtime) (id : StatementId)
    (b : Books) : ∃ b',
      env.stopIn id ℓ (.ok (), b) =
        (.ok { ℓ.running with agents := ℓ.running.agents.filter fun a => !a.runs id },
          (.ok (), b')) ∧ b.Notes b' := by
  let stopping := ℓ.running.agents.filter fun a => a.runs id
  have hstopped : (env.stopAgents none true stopping b).1 = .ok () :=
    stopAgents_tame fun a ha => h a (List.mem_filter.1 ha).1
  refine ⟨(env.stopAgents none true stopping b).2, ?_, Books.notes_stopAgents⟩
  simp only [stopIn, stopping, hstopped]

theorem startEverywhere_twins (h : env.Twins keep env') (s : Statement)
    (hn : n.Rel (Children.Twins keep env.runtime below) n') (hb : b.Twins b') :
    Pair (Node.Rel (Children.Twins keep env.runtime below)) Books.Twins
      (env.startEverywhere s below n b) (env'.startEverywhere s below n' b') := by
  have hvisit : ∀ ℓ ℓ' (w v : List Agent × Books), ℓ.Twins keep env.runtime ℓ' → w.2.Twins v.2 →
      Pair (Running.Twins keep env.runtime) (fun w v => w.2.Twins v.2) (env.startIn s ℓ w)
        (env'.startIn s ℓ' v) := by
    intro ℓ ℓ' w v hℓ hw
    obtain ⟨a, w', hstart, hnotes, hplain, htame⟩ := startIn_unfailing h.unfailing s ℓ w
    obtain ⟨a', v', hstart', hnotes', hplain', htame'⟩ := startIn_unfailing h.unfailing' s ℓ' v
    rw [hstart, hstart']
    refine .ok (hℓ.running.append ?_ htame (h.runtime ▸ htame')) (hw.notes hnotes hnotes')
    rw [hplain, hplain', hℓ.path, hℓ.partition, h.fresh]
  rw [startEverywhere, startEverywhere]
  refine (Node.traverseLeaves_twins hvisit hn [] (w := ([], b)) (v := ([], b')) hb).elim
    fun m m' w v hm hw => .ok hm hw

theorem startEverywhere_other (h : env.Twins keep env') (hother : keep s.id = false)
    (hn : n.Rel (Children.Twins keep env.runtime below) n') (hb : b.Twins b') :
    ∃ m v, env'.startEverywhere s below n' b' = (.ok m, v) ∧
      Node.Twins keep env.runtime below (n, b) (m, v) := by
  have hvisit : ∀ (ℓ ℓ' : Leaf) (w : Books) (v : List Agent × Books),
      ℓ.Twins keep env.runtime ℓ' → w.Twins v.2 →
      Pair (Running.Twins keep env.runtime) (fun w v => w.Twins v.2)
        (.ok ℓ.running, w) (env'.startIn s ℓ' v) := by
    intro ℓ ℓ' w v hℓ hw
    obtain ⟨a, v', hstart, hnotes, hplain, htame⟩ := startIn_unfailing h.unfailing' s ℓ' v
    have hstatement : a.statement = s := congrArg Agent.statement hplain
    rw [hstart]
    refine .ok (hℓ.running.append_other ?_ (h.runtime ▸ htame)) (hw.notes (.refl _) hnotes)
    rwa [hstatement]
  have hdone := Node.traverseLeaves_twins hvisit hn [] (w := b) (v := ([], b')) hb
  rw [Node.traverseLeaves_id fun _ => rfl] at hdone
  rcases hx : n'.traverseLeaves (env'.startIn s) below [] ([], b') with ⟨o, v⟩
  rw [hx] at hdone
  cases hdone with
  | @ok _ m _ _ hm hw =>
      refine ⟨m, v.2, ?_, hm, hw⟩
      simp only [startEverywhere, hx]

theorem stopEverywhere_twins (h : env.Twins keep env') (id : StatementId)
    (hn : n.Rel (Children.Twins keep env.runtime below) n') (hb : b.Twins b') :
    (env.stopEverywhere id below n b).1 = (env'.stopEverywhere id below n' b').1 ∧
      Node.Twins keep env.runtime below (env.stopEverywhere id below n b).2
        (env'.stopEverywhere id below n' b').2 := by
  let W (w v : Except Error Unit × Books) : Prop := w.1 = .ok () ∧ v.1 = .ok () ∧ w.2.Twins v.2
  have hvisit : ∀ ℓ ℓ' w v, ℓ.Twins keep env.runtime ℓ' → W w v →
      Pair (Running.Twins keep env.runtime) W (env.stopIn id ℓ w) (env'.stopIn id ℓ' v) := by
    rintro ℓ ℓ' ⟨_, b⟩ ⟨_, b'⟩ hℓ ⟨rfl, rfl, hw⟩
    obtain ⟨c, hstop, hnotes⟩ := stopIn_tame hℓ.running.tame id b
    obtain ⟨c', hstop', hnotes'⟩ := stopIn_tame (h.runtime ▸ hℓ.running.tame') id b'
    rw [hstop, hstop']
    exact .ok (hℓ.running.without id) ⟨rfl, rfl, hw.notes hnotes hnotes'⟩
  rw [stopEverywhere, stopEverywhere]
  refine (Node.traverseLeaves_twins hvisit hn [] (w := (.ok (), b)) (v := (.ok (), b'))
    ⟨rfl, rfl, hb⟩).elim fun m m' w v hm hw => ?_
  exact ⟨hw.1.trans hw.2.1.symm, hm, hw.2.2⟩

theorem stopEverywhere_other (h : env.Twins keep env') (hother : keep id = false)
    (hn : n.Rel (Children.Twins keep env.runtime below) n') (hb : b.Twins b') :
    Node.Twins keep env.runtime below (n, b) (env'.stopEverywhere id below n' b').2 := by
  let W (w : Books) (v : Except Error Unit × Books) : Prop := v.1 = .ok () ∧ w.Twins v.2
  have hvisit : ∀ (ℓ ℓ' : Leaf) w v, ℓ.Twins keep env.runtime ℓ' → W w v →
      Pair (Running.Twins keep env.runtime) W (.ok ℓ.running, w) (env'.stopIn id ℓ' v) := by
    rintro ℓ ℓ' b ⟨_, b'⟩ hℓ ⟨rfl, hw⟩
    obtain ⟨c', hstop, hnotes⟩ := stopIn_tame (h.runtime ▸ hℓ.running.tame') id b'
    rw [hstop]
    exact .ok (hℓ.running.without_other hother) ⟨rfl, hw.notes (.refl _) hnotes⟩
  have hdone := Node.traverseLeaves_twins hvisit hn [] (w := b) (v := (.ok (), b')) ⟨rfl, hb⟩
  rw [Node.traverseLeaves_id fun _ => rfl] at hdone
  rcases hx : n'.traverseLeaves (env'.stopIn id) below [] (.ok (), b') with ⟨o, v⟩
  rw [hx] at hdone
  cases hdone with
  | ok hm hw =>
      simp only [stopEverywhere, hx]
      exact ⟨hm, hw.2⟩

end Setting

end EventContexts
