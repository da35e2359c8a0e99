import EventContexts.Context.Statements
import EventContexts.Proofs.Ledger

namespace EventContexts

open Act

def Runtime.Willing (runtime : Runtime) : Prop :=
  ∀ trace request, ∃ failure, runtime.start trace request = .ok failure

theorem Runtime.willing_collecting : Runtime.collecting.Willing := fun _ _ => ⟨none, rfl⟩

structure Books.Launched (requests : List StartRequest) (b b' : Books) : Prop where
  ids : b'.ids = b.ids
  started : b'.trace.started = b.trace.started ++ requests

namespace Books.Launched

variable {b b' b'' : Books} {requests requests' : List StartRequest}

theorem refl (b : Books) : b.Launched [] b := ⟨rfl, (List.append_nil _).symm⟩

theorem trans (h : b.Launched requests b') (h' : b'.Launched requests' b'') :
    b.Launched (requests ++ requests') b'' :=
  ⟨h'.ids.trans h.ids, by rw [h'.started, h.started, List.append_assoc]⟩

end Books.Launched

namespace Setting

variable {env : Setting} {path : Path} {p : UInt32} {recovering : Bool} {b b₁ : Books}

theorem launched_offerAll {e : Event} {agents : List Agent} :
    b.Launched [] (offerAll e agents b).2 := by
  induction agents generalizing b with
  | nil => exact .refl b
  | cons a rest ih =>
      have hoffer : b.Launched [] (a.offer e b).2 := by
        rw [Agent.offer]
        split
        · exact ⟨rfl, by simp [Books.record, Action.started?]⟩
        · exact .refl b
      rw [offerAll]
      exact hoffer.trans ih

theorem startAgents_willing (hwilling : env.runtime.Willing) {ss : List Statement}
    {started : List Agent} :
    Ends (fun _ b' => b.Launched (ss.map (env.startRequest path p recovering)) b')
      (fun _ _ => False) (env.startAgents path p recovering ss started b) := by
  induction ss generalizing started b with
  | nil => exact .refl b
  | cons s rest ih =>
      obtain ⟨failure, hstart⟩ := hwilling b.trace (env.startRequest path p recovering s)
      have hrecord : b.Launched [env.startRequest path p recovering s]
          ((b.record (.started (env.startRequest path p recovering s))).count
            Metrics.countStarted) :=
        ⟨rfl, by simp [Books.record, Books.count, Action.started?]⟩
      simp only [startAgents, startAgent, hstart]
      exact ih.imp (fun _ _ hb' => hrecord.trans hb') fun _ _ h => h

structure Opened (env : Setting) (path : Path) (owner : Controller) (r : Request) (p : UInt32)
    (partitions : Table Running) (b : Books) (h : Handle) (s : Table Running × Books) : Prop where
  running : ∃ running : Running, running.key = r.key ∧ s.1 = partitions.insert p running ∧
    h = .leaf owner.id p running.generation
  launched : b.Launched (env.statements.map (env.startRequest
    (path ++ [⟨owner.level, r.key, capture r⟩]) p r.recovered.isSome)) s.2

theorem startPartition_willing (hwilling : env.runtime.Willing) {owner : Controller} {r : Request}
    {partitions : Table Running} (hroom : ∀ n ∈ env.limit, b.ids.count < n)
    (hclaim : env.claim r.assigned b = (.ok p, b₁)) :
    Ends (env.Opened path owner r p partitions b₁) (fun _ _ => False)
      (env.startPartition owner path r (partitions, b)) := by
  have hlimit : ¬ (env.limit.any fun limit => decide (limit ≤ b.ids.count)) = true := by
    rw [Option.any_eq_true]
    rintro ⟨n, hn, hle⟩
    exact Nat.not_le.2 (hroom n hn) (of_decide_eq_true hle)
  let path' := path ++ [⟨owner.level, r.key, capture r⟩]
  let requests := env.statements.map (env.startRequest path' p r.recovered.isSome)
  have hstart : Ends (fun _ b' => b₁.Launched requests b') (fun _ _ => False)
      (env.startAgents path' p r.recovered.isSome env.statements [] b₁) :=
    startAgents_willing hwilling
  rw [startPartition, if_neg hlimit, hclaim]
  simp only
  split
  · next e b₂ heq => exact hstart.congr heq
  · next agents b₂ heq =>
      have hb₂ : b₁.Launched _ b₂ := hstart.congr heq
      cases r.trigger with
      | none => exact ⟨⟨_, rfl, rfl, rfl⟩, hb₂.ids, hb₂.started⟩
      | some e =>
          have hoffer : b₂.Launched [] (offerAll e agents b₂).2 := launched_offerAll
          have hoffered := hb₂.trans hoffer
          rw [List.append_nil] at hoffered
          exact ⟨⟨_, rfl, rfl, rfl⟩, hoffered.ids, hoffered.started⟩

end Setting

theorem Context.attach_ok_iff {runtime : Runtime} {s : Statement} {c c' : Context}
    (hroot : c.root = none) :
    attach runtime s c = (.ok (), c') ↔ c.isAttached s.id = false ∧
      Declaration.checkAll (fun l => Level.validate l s) c.declaration.levels = .ok () ∧
      awaken runtime { c with statements := c.statements ++ [s] } = (.ok (), c') := by
  rw [attach]
  split
  · next h => simp [h]
  · next h =>
      rw [Bool.not_eq_true] at h
      split
      · next e hcheck => simp [hcheck]
      · next hcheck =>
          simp only [hroot, h, hcheck, true_and]
          split
          · next c₁ heq => rw [heq]
          · next e c₁ heq => simp [heq]

end EventContexts
