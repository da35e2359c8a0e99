import EventContexts.Proofs.Growth

namespace EventContexts

namespace Agent

variable {a : Agent} {e : Event}

@[simp] theorem request_evaluate : (a.evaluate e).request = a.request := by
  rw [evaluate]
  split <;> rfl

@[simp] theorem statement_evaluate : (a.evaluate e).statement = a.statement :=
  congrArg StartRequest.statement request_evaluate

@[simp] theorem detached_evaluate : (a.evaluate e).view.detached = a.view.detached := by
  rw [evaluate]
  split
  · rw [View.process]
    split <;> rfl
  · rfl

end Agent

namespace Leaf

def withAgents (ℓ : Leaf) (agents : List Agent) : Leaf :=
  { ℓ with running := { ℓ.running with agents } }

structure Staffed (d : Descriptor) (ss : List Statement) (ℓ : Leaf) : Prop where
  statements : ℓ.running.agents.map Agent.statement = ss
  requests : ∀ a ∈ ℓ.running.agents, ∃ recovering, a.request =
    { statement := a.statement, partition := ℓ.partition, recovering
      builtin := d.builtin ℓ.partition ℓ.path.properties
      addendum := ℓ.path.addendum a.statement }
  attached : ∀ a ∈ ℓ.running.agents, a.view.detached = false

variable {d : Descriptor} {ss : List Statement} {ℓ : Leaf}

theorem Staffed.append (h : ℓ.Staffed d ss) {a : Agent} {recovering : Bool} {s : Statement}
    (ha : a.request =
      { statement := s, partition := ℓ.partition, recovering
        builtin := d.builtin ℓ.partition ℓ.path.properties, addendum := ℓ.path.addendum s })
    (hview : a.view = {}) :
    (ℓ.withAgents (ℓ.running.agents ++ [a])).Staffed d (ss ++ [s]) := by
  have hs : a.statement = s := congrArg StartRequest.statement ha
  constructor
  · simp [withAgents, h.statements, hs]
  · intro a' ha'
    rcases List.mem_append.1 ha' with ha' | ha'
    · exact h.requests a' ha'
    · obtain rfl := List.mem_singleton.1 ha'
      exact ⟨recovering, by rw [hs]; exact ha⟩
  · intro a' ha'
    rcases List.mem_append.1 ha' with ha' | ha'
    · exact h.attached a' ha'
    · obtain rfl := List.mem_singleton.1 ha'
      rw [hview]

theorem Staffed.without (h : ℓ.Staffed d ss) (id : StatementId) :
    (ℓ.withAgents (ℓ.running.agents.filter fun a => !a.runs id)).Staffed d
      (ss.filter fun s => s.id ≠ id) where
  statements := by
    rw [← h.statements, List.filter_map]
    refine congrArg (List.map Agent.statement) (List.filter_congr fun a _ => ?_)
    simp [Agent.runs, beq_eq_decide]
  requests a ha := h.requests a (List.mem_filter.1 ha).1
  attached a ha := h.attached a (List.mem_filter.1 ha).1

theorem Staffed.evaluate (h : ℓ.Staffed d ss) (e : Event) :
    (ℓ.withAgents (ℓ.running.agents.map fun a => a.evaluate e)).Staffed d ss where
  statements := by
    rw [← h.statements]
    simp [withAgents, Function.comp_def]
  requests := by
    simpa [withAgents] using h.requests
  attached := by
    simpa [withAgents] using h.attached

end Leaf

namespace Setting

variable {env : Setting} {since : Nat}

theorem Opens.staffed {ℓ : Leaf} {recovering : Bool}
    (h : env.Opens ℓ.path ℓ.partition recovering ℓ.running.agents) :
    ℓ.Staffed env.descriptor env.statements where
  statements := by
    have hstatements := congrArg (List.map StartRequest.statement) h.requests
    rw [List.map_map, List.map_map] at hstatements
    exact hstatements.trans (List.map_id _)
  requests a ha := by
    have hmem :
        a.request ∈ env.statements.map (env.startRequest ℓ.path ℓ.partition recovering) := by
      rw [← h.requests]
      exact List.mem_map_of_mem ha
    obtain ⟨s, -, hs⟩ := List.mem_map.1 hmem
    refine ⟨recovering, ?_⟩
    rw [Agent.statement, ← hs]
    rfl
  attached a ha := by
    rw [h.blank a ha]

theorem staffed_policy :
    env.Policy since (fun _ _ _ => True) (Leaf.Staffed env.descriptor env.statements) where
  inherit _ _ _ _ _ := trivial
  seed {path l r id p generation agents} _ _ hopens := by
    let ℓ : Leaf := ⟨path ++ [⟨l, r.key, capture r⟩], id, p, ⟨generation, r.key, capture r, agents⟩⟩
    have hstaffed : ℓ.Staffed env.descriptor env.statements := Opens.staffed hopens
    cases htrigger : r.trigger with
    | none => exact hstaffed
    | some e => exact hstaffed.evaluate e

end Setting

end EventContexts
