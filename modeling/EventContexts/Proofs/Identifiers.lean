import EventContexts.Proofs.Atomicity
import EventContexts.Proofs.Freshness
import EventContexts.Proofs.Selection
import EventContexts.Proofs.Tenure

namespace EventContexts

open Act

namespace Context

variable {X : UInt32 → Prop} {since : Nat} {q : UInt32} {x : Past} {c c' : Context}
  {runtime : Runtime} {strict : Prop}

theorem Reachable.reuse_eq (h : Reachable (fun _ => True) c) :
    c.books.ids.reuse = c.options.reuseIds := by
  induction h with
  | new => rfl
  | @step c runtime op hreach _ ih =>
      have hsound : c.Sound False := hreach.sound False.elim
      rw [hsound.perform_onward.books.reuse, perform_frame.2, ih]

structure Numbered (X : UInt32 → Prop) (since : Nat) (q : UInt32) (x : Past) (c : Context) :
    Prop where
  handed : c.root = none → Assignment.Within X (c.recovery.getD [])
  tended : c.Tended (.within X) (Setting.Numbered X since q) x c.descriptor c.statements

def Survives (X : UInt32 → Prop) (since : Nat) (q : UInt32) (x : Past) (c : Context) : Prop :=
  c.root.isSome = true → c.Numbered X since q x

theorem Numbered.perform (h : c.Numbered X since q x) (hsound : c.Sound False) {op : Operation}
    (hr : ∀ r, op.Asks r → r.Within X) : (perform runtime op c).2.Survives X since q x := by
  intro hactive
  have hoverlooks : Setting.Overlooks (Setting.Numbered X since q) :=
    fun hkin hhandles hbooks hnumbered =>
      hnumbered.lapse hbooks.lapses (hkin.under _ hnumbered.recalls) fun g hg => hhandles ▸ hg
  have hkept : (Context.perform runtime op c).2.root = none ∨
      (Context.perform runtime op c).2.Tended (.within X) (Setting.Numbered X since q) x
        c.descriptor (Context.perform runtime op c).2.statements :=
    h.tended.perform hoverlooks hsound Manners.within_lawful
      (fun env _ hss => Setting.numbered_custody hss) h.handed fun r _ hasks => hr r hasks
  rcases hkept with hnone | htended
  · rw [hnone] at hactive
    cases hactive
  · refine ⟨fun hnone => ?_, rfl, rfl, htended.idle, htended.tree⟩
    rw [hnone] at hactive
    cases hactive

/-- Any operations after which the tree is alive, one after the other, each under a runtime of its
own. Identifiers that come from outside meanwhile have `X`. -/
def Persists (X : UInt32 → Prop) : Context → Context → Prop :=
  Relation.ReflTransGen fun c c' => ∃ runtime op, (∀ r, op.Asks r → r.Within X) ∧
    c' = (perform runtime op c).2 ∧ c'.root.isSome = true

theorem Persists.numbered (hrun : c.Persists X c') (hreach : Reachable (fun _ => True) c)
    (h : c.Numbered X since q x) :
    Reachable (fun _ => True) c' ∧ c'.Numbered X since q x := by
  induction hrun with
  | refl => exact ⟨hreach, h⟩
  | tail _ hstep ih =>
      obtain ⟨runtime, op, hr, rfl, hactive⟩ := hstep
      obtain ⟨hreach, h⟩ := ih
      exact ⟨hreach.step runtime op trivial, h.perform (hreach.sound False.elim) hr hactive⟩

theorem Numbered.now (h : c.Numbered X since q x) :
    c.Numbered X since q ⟨c.books.trace, c.books.ids.next, c.Denotes⟩ where
  handed := h.handed
  tended :=
    { descriptor := rfl
      statements := rfl
      idle := fun hroot id => (h.tended.idle hroot id).now (by simp)
      tree := fun root hroot =>
        have hplanted := h.tended.tree root hroot
        ⟨hplanted.level, rfl, hplanted.minded.knows,
          hplanted.minded.children.now fun _ hg => (denotes_iff hroot).2 hg⟩ }

theorem Reachable.numbered (h : Reachable (fun _ => True) c) (hidle : c.root = none)
    (hreuse : c.options.reuseIds = false) (hhanded : Assignment.Within X (c.recovery.getD [])) :
    c.Numbered X c.books.trace.length q ⟨c.books.trace, c.books.ids.next, fun _ => False⟩ := by
  have hids : PartitionIds.new false = c.books.ids := by
    rw [← hreuse, ← h.reuse_eq]
    exact h.cleared hidle
  have hcounting : c.books.ids.Counting X q := hids ▸ PartitionIds.counting_new
  refine ⟨fun _ => hhanded, rfl, rfl, fun _ id => ?_, fun root hroot => ?_⟩
  · exact ⟨Nat.le_refl _, List.prefix_refl _, Children.all_empty,
      .inr ⟨hcounting, UInt32.le_refl _, by simp⟩⟩
  · rw [hidle] at hroot
    cases hroot

theorem Numbered.of_mem_leaves (h : c.Numbered X since q x) {ℓ : Leaf} (hℓ : ℓ ∈ c.leaves) :
    x.trace <+: c.books.trace ∧ (c.books.Named since q ∨
      c.books.ids.Counting X q ∧
        (x.live (.leaf ℓ.controller ℓ.partition ℓ.running.generation) ∨
          X ℓ.partition ∨ x.next ≤ ℓ.partition)) := by
  cases hroot : c.root with
  | none => simp [leaves, hroot] at hℓ
  | some root =>
      have hnumbered := (h.tended.tree root hroot).minded.children
      rw [leaves_of_root hroot] at hℓ
      exact ⟨hnumbered.trace, hnumbered.course.imp (fun hnamed => hnamed) fun hunder =>
        ⟨hunder.counting, hunder.handles _ (Node.handle_of_mem_leaves hℓ)⟩⟩

theorem Sound.generation_of_denotes (hc : c.Sound strict) {ℓ : Leaf} (hℓ : ℓ ∈ c.leaves)
    {id : ControllerId} {g : Nat} (hlive : c.Denotes (.leaf id ℓ.partition g)) :
    g = ℓ.running.generation := by
  cases hroot : c.root with
  | none => exact absurd hlive (not_denotes_of_none hroot)
  | some root =>
      obtain ⟨ℓ', hℓ', hpartition, rfl⟩ := Node.leaf_of_mem_handles [] ((denotes_iff hroot).1 hlive)
      rw [← leaves_of_root hroot] at hℓ'
      rw [List.inj_on_of_nodup_map hc.nodup_partitions hℓ' hℓ hpartition]

def given (c₀ c : Context) : IdSet :=
  .ofList ((c.books.trace.drop c₀.books.trace.length).filterMap Action.partition?)

/-- Without reuse, and as long as there are identifiers that were not given yet, a partition shares
its identifier with an earlier one only if the identifier comes from outside: from the assignments
to recreate when the tree comes to life, or from a caller. -/
theorem identifiers_given_once {c₀ : Context} {ℓ ℓ' : Leaf} (hreach : Reachable (fun _ => True) c₀)
    (hidle : c₀.root = none) (hreuse : c₀.options.reuseIds = false)
    (hhanded : Assignment.Within X (c₀.recovery.getD [])) (hpast : c₀.Persists X c)
    (hfuture : c.Persists X c') (hroom : (c₀.given c').size < UInt32.size) (hℓ : ℓ ∈ c.leaves)
    (hℓ' : ℓ' ∈ c'.leaves) (hsame : ℓ'.partition = ℓ.partition) (hinside : ¬ X ℓ.partition) :
    ℓ'.running.generation = ℓ.running.generation := by
  obtain ⟨q, hspare⟩ : ∃ q, q ∉ (c₀.given c').keys :=
    ⟨PartitionIds.firstFree _ _ 0, PartitionIds.firstFree_not_mem hroom⟩
  have hq : ¬ c'.books.Named c₀.books.trace.length q :=
    fun hnamed => hspare (IdSet.mem_ofList.2 hnamed)
  obtain ⟨hreach₁, h₁⟩ := hpast.numbered hreach (hreach.numbered hidle hreuse hhanded)
  obtain ⟨-, h₂⟩ := hfuture.numbered hreach₁ h₁.now
  have hsound : c.Sound False := hreach₁.sound False.elim
  obtain ⟨hgrown, hpresent⟩ := h₂.of_mem_leaves hℓ'
  obtain ⟨-, hbefore⟩ := h₁.of_mem_leaves hℓ
  have hcounting : c.books.ids.Counting X q :=
    (hbefore.resolve_left fun hnamed => hq (hnamed.mono hgrown)).1
  have hcounted : ℓ.partition < c.books.ids.next :=
    (hcounting.counted _ (hsound.allocated.mem_iff.2 (List.mem_map_of_mem hℓ))).resolve_left hinside
  rcases (hpresent.resolve_left hq).2 with hlive | houtside | hlater
  · exact hsound.generation_of_denotes hℓ (hsame ▸ hlive)
  · exact absurd (hsame ▸ houtside) hinside
  · exact absurd (hsame ▸ hlater) (UInt32.not_le.2 hcounted)

def awaited : Context :=
  let visitors : Declaration :=
    { name := "visitors"
      outer := .keyed { name := "visitor", items := [⟨"Page", ["user"]⟩] }
      inner := []
      sound := by decide
      distinct := by decide }
  Context.new visitors {} none (some [{ key := .keyed [.int 1], partition := some 0 }])

def readmitted : Context := (perform .collecting (.attach seen) awaited).2

def pageBy (user : Int64) : Event :=
  { type := "Page", data := OrderedMap.ofPairs [("user", .int user)] }

def accompanied : Context := (perform .collecting (.process (pageBy 2)) readmitted).2

def outlasted : Context :=
  let alone := (perform .collecting (.terminate (.leaf ⟨0⟩ 0 0) none) accompanied).2
  (perform .collecting (.process (pageBy 3)) alone).2

theorem awaited_within : Assignment.Within (· = 0) (awaited.recovery.getD []) := by
  intro x hx p hp
  obtain rfl := List.mem_singleton.1 hx
  cases hp with
  | here h => exact (Option.some.inj h).symm
  | under hy => cases hy

theorem awaited_readmitted : awaited.Persists (· = 0) readmitted :=
  .single ⟨.collecting, .attach seen, fun _ h => h.elim, rfl, rfl⟩

theorem identifiers_given_once_outlasted :
    (∃ ℓ ∈ accompanied.leaves, ℓ.partition = 1) ∧ (∃ ℓ ∈ outlasted.leaves, ℓ.partition = 1) ∧
      ∀ ℓ ∈ accompanied.leaves, ∀ ℓ' ∈ outlasted.leaves, ℓ.partition = 1 → ℓ'.partition = 1 →
        ℓ'.running.generation = ℓ.running.generation := by
  have hpast : awaited.Persists (· = 0) accompanied :=
    awaited_readmitted.tail ⟨.collecting, .process (pageBy 2), fun _ h => h.elim, rfl, rfl⟩
  have hfuture : accompanied.Persists (· = 0) outlasted :=
    .tail (.single ⟨.collecting, .terminate (.leaf ⟨0⟩ 0 0) none, fun _ h => h.elim, rfl, rfl⟩)
      ⟨.collecting, .process (pageBy 3), fun _ h => h.elim, rfl, rfl⟩
  refine ⟨by decide, by decide, fun ℓ hℓ ℓ' hℓ' hone hone' => ?_⟩
  exact identifiers_given_once (.new ..) rfl rfl awaited_within hpast hfuture (by decide) hℓ hℓ'
    (hone'.trans hone.symm) (hone ▸ by decide)

def relet : Context :=
  let vacant := (perform .collecting (.terminate (.leaf ⟨0⟩ 0 0) none) readmitted).2
  (perform .collecting (.process (pageBy 2)) vacant).2

/-- The counter comes to an identifier that was taken over from outside and released since, and
gives it to another partition. -/
theorem recovered_identifier_given_again :
    Reachable (fun _ => True) awaited ∧ awaited.root = none ∧
      awaited.options.reuseIds = false ∧ awaited.Persists (· = 0) readmitted ∧
      readmitted.Persists (· = 0) relet ∧ (awaited.given relet).size = 1 ∧
      ∃ ℓ ∈ readmitted.leaves, ∃ ℓ' ∈ relet.leaves, ℓ'.partition = ℓ.partition ∧
        ℓ'.running.generation ≠ ℓ.running.generation := by
  have hfuture : readmitted.Persists (· = 0) relet :=
    .tail (.single ⟨.collecting, .terminate (.leaf ⟨0⟩ 0 0) none, fun _ h => h.elim, rfl, rfl⟩)
      ⟨.collecting, .process (pageBy 2), fun _ h => h.elim, rfl, rfl⟩
  exact ⟨.new .., rfl, rfl, awaited_readmitted, hfuture, by decide, by decide⟩

end Context

end EventContexts
