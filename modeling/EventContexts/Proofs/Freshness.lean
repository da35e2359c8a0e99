import EventContexts.Proofs.Handles
import EventContexts.Proofs.Numbering
import EventContexts.Proofs.Provenance
import Mathlib.Data.List.Infix
/-!
Without reuse the counter goes forward through all steps of a tree, until it has gone through all
numbers: identifiers that are new to the tree are ahead of it, or come from outside.
-/

namespace EventContexts

open Act

namespace PartitionIds

variable {X : UInt32 → Prop} {inUse : IdSet} {next found id q : UInt32} {n : Nat}
  {p : PartitionIds}

theorem Search.between {ids : List UInt32} (h : Search inUse ids next n found) (hids : ids = [])
    (hq : inUse.contains q = false) (hle : next ≤ q) : next ≤ found ∧ found ≤ q := by
  induction h with
  | released => cases hids
  | back => cases hids
  | free => exact ⟨UInt32.le_refl _, hle⟩
  | @taken next found n htaken _ ih =>
      have hlt : next < q := by
        refine UInt32.lt_of_le_of_ne hle fun heq => ?_
        rw [heq, hq] at htaken
        cases htaken
      obtain ⟨hsucc, hsucc'⟩ := UInt32.lt_add_one_of_lt hlt
      obtain ⟨hfrom, hto⟩ := ih rfl hsucc'
      exact ⟨UInt32.le_trans (UInt32.le_of_lt hsucc) hfrom, hto⟩

/-- Without reuse: the counter has not come to `q` yet, nor is it in use, and all that is in use has
been counted or has `X`. -/
structure Counting (X : UInt32 → Prop) (q : UInt32) (p : PartitionIds) : Prop where
  reuse : p.reuse = false
  ahead : q ∉ p.ids
  next : p.next ≤ q
  counted : ∀ id ∈ p.ids, X id ∨ id < p.next

theorem counting_new : (new false).Counting X q :=
  ⟨rfl, List.not_mem_nil, UInt32.zero_le, fun _ hid => (List.not_mem_nil hid).elim⟩

namespace Counting

theorem remove (h : p.Counting X q) : (p.remove id).2.Counting X q where
  reuse := reuse_remove.trans h.reuse
  ahead hq := h.ahead (mem_ids_remove.1 hq).2
  next := by rw [next_remove]; exact h.next
  counted x hx := by rw [next_remove]; exact h.counted x (mem_ids_remove.1 hx).2

theorem add (h : p.Counting X q) (hid : X id) (hne : id ≠ q) : (p.add id).2.Counting X q where
  reuse := reuse_add.trans h.reuse
  ahead hq := (mem_ids_add.1 hq).elim (fun heq => hne heq.symm) h.ahead
  next := by rw [next_add]; exact h.next
  counted x hx := by
    rw [next_add]
    exact (mem_ids_add.1 hx).elim (fun heq => .inl (heq ▸ hid)) (h.counted x)

theorem allocate (h : p.Counting X q) (hroom : p.count < UInt32.size) (hne : p.allocate.1 ≠ q) :
    p.allocate.2.Counting X q ∧ p.next ≤ p.allocate.1 ∧ p.next ≤ p.allocate.2.next := by
  have hqueue : p.queue = [] := by simp [queue, h.reuse]
  have hreusable : p.reusable = [] := by simp [reusable, h.reuse]
  have hq : p.inUse.contains q = false := Bool.eq_false_iff.2 fun hc => h.ahead (contains_iff.1 hc)
  have hsearch := search_allocate hroom
  rw [hqueue] at hsearch
  obtain ⟨hfrom, hto⟩ := hsearch.between rfl hq h.next
  have hnext : p.allocate.2.next = p.allocate.1 + 1 := by rw [allocate_of_nil hreusable]
  obtain ⟨hsucc, hsucc'⟩ := UInt32.lt_add_one_of_lt (UInt32.lt_of_le_of_ne hto hne)
  have hmoved : p.next ≤ p.allocate.2.next :=
    hnext ▸ UInt32.le_trans hfrom (UInt32.le_of_lt hsucc)
  refine ⟨⟨reuse_allocate.trans h.reuse, fun hmem => ?_, hnext ▸ hsucc', fun x hx => ?_⟩, hfrom,
    hmoved⟩
  · exact ((mem_ids_allocate hroom).1 hmem).elim (fun heq => hne heq.symm) h.ahead
  · rcases (mem_ids_allocate hroom).1 hx with rfl | hx
    · exact .inr (hnext ▸ hsucc)
    · exact (h.counted x hx).imp_right fun hlt => UInt32.lt_of_lt_of_le hlt hmoved

end Counting

end PartitionIds

def Action.partition? : Action → Option UInt32
  | .started r | .refused r => some r.partition
  | .processed .. | .stopped .. => none

namespace Books

variable {X : UInt32 → Prop} {since : Nat} {p q : UInt32} {b b' b'' : Books} {env : Setting}
  {path : Path} {recovering : Bool} {ss : List Statement} {started : List Agent}
  {termination : Option Props} {statementLevel : Bool}

def Named (since : Nat) (p : UInt32) (b : Books) : Prop :=
  p ∈ (b.trace.drop since).filterMap Action.partition?

theorem Named.mono (h : b.Named since p) (ht : b.trace <+: b'.trace) : b'.Named since p :=
  ((List.IsPrefix.drop ht since).sublist.filterMap _).subset h

theorem named_startAgent {s : Statement} (hsince : since ≤ b.trace.length) :
    (env.startAgent path p recovering s b).2.Named since p := by
  have hrecord {a : Action} (ha : a.partition? = some p) : (b.record a).Named since p := by
    rw [Named, record, List.drop_append_of_le_length hsince, List.filterMap_append]
    exact List.mem_append_right _ (List.mem_filterMap.2 ⟨a, List.mem_singleton_self a, ha⟩)
  rw [Setting.startAgent]
  split <;> exact hrecord rfl

theorem named_startAgents (hss : ss ≠ []) (hsince : since ≤ b.trace.length) :
    (env.startAgents path p recovering ss started b).2.Named since p := by
  obtain ⟨s, rest, rfl⟩ := List.exists_cons_of_ne_nil hss
  have hfirst : (env.startAgent path p recovering s b).2.Named since p := named_startAgent hsince
  simp only [Setting.startAgents]
  split
  · next a b' heq =>
      rw [heq] at hfirst
      exact hfirst.mono notes_startAgents.trace
  · next e b' heq =>
      rw [heq] at hfirst
      exact hfirst.mono notes_stopAgents.trace

structure Lapses (X : UInt32 → Prop) (q : UInt32) (b b' : Books) : Prop where
  trace : b.trace <+: b'.trace
  next : b'.ids.next = b.ids.next
  counting : b.ids.Counting X q → b'.ids.Counting X q

theorem Notes.lapses (h : b.Notes b') : b.Lapses X q b' :=
  ⟨h.trace, congrArg PartitionIds.next h.ids, fun hc => h.ids ▸ hc⟩

namespace Lapses

theorem trans (h : b.Lapses X q b') (h' : b'.Lapses X q b'') : b.Lapses X q b'' :=
  ⟨h.trace.trans h'.trace, h'.next.trans h.next, fun hc => h'.counting (h.counting hc)⟩

theorem refl (b : Books) : b.Lapses X q b := (Notes.refl b).lapses

theorem noted (h : b.Lapses X q b') (h' : b'.Notes b'') : b.Lapses X q b'' := h.trans h'.lapses

theorem release (h : b.Lapses X q b') (id : UInt32) : b.Lapses X q (b'.release id) :=
  ⟨h.trace, PartitionIds.next_remove.trans h.next, fun hc => (h.counting hc).remove⟩

theorem closePartition (h : b.Lapses X q b') {leaf : UInt32 × List Agent} :
    b.Lapses X q (env.closePartition termination statementLevel leaf b').2 :=
  ((h.noted notes_stopAgents).release leaf.1).noted ((Notes.refl _).count _)

theorem closeAll (h : b.Lapses X q b') {below : List Level} {node : Node (Children below)} :
    b.Lapses X q (env.closeAll termination statementLevel below node b').2 := by
  have hclose : Keeps (Lapses X q b) (forAll (env.closePartition termination statementLevel)
      ((node.leaves below []).map fun l => (l.partition, l.running.agents))) :=
    keeps_forAll fun _ _ _ h => ends_of_state h.closePartition
  exact (hclose b' h).state.noted ((Notes.refl _).count _)

end Lapses

end Books

structure Past where
  trace : Trace
  next : UInt32
  live : Handle → Prop

/-- Goes by an identifier that has `X` or that the counter had yet to come to. -/
def Handle.Later (X : UInt32 → Prop) (next : UInt32) : Handle → Prop
  | .branch .. => True
  | .leaf _ p _ => X p ∨ next ≤ p

namespace Setting

variable {X : UInt32 → Prop} {since : Nat} {q : UInt32} {x : Past} {b b' : Books}
  {env : Setting} {below : List Level} {post : Post} {hs hs' : List Handle}

structure Underway (X : UInt32 → Prop) (q : UInt32) (x : Past) (hs : List Handle) (b : Books) :
    Prop where
  counting : b.ids.Counting X q
  next : x.next ≤ b.ids.next
  handles : ∀ h ∈ hs, x.live h ∨ h.Later X x.next

theorem Underway.lapse (h : Underway X q x hs b) (hb : b.Lapses X q b') : Underway X q x hs b' :=
  ⟨hb.counting h.counting, hb.next ▸ h.next, h.handles⟩

theorem Underway.subset (h : Underway X q x hs b) (hsub : hs' ⊆ hs) : Underway X q x hs' b :=
  ⟨h.counting, h.next, fun g hg => h.handles g (hsub hg)⟩

theorem claim_trace {assigned : Option UInt32} :
    Ends (fun _ b' => b'.trace = b.trace) (fun _ b' => b' = b) (env.claim assigned b) := by
  rw [claim.eq_def]
  split <;> split <;> rfl

theorem claim_underway {assigned : Option UInt32} (h : Underway X q x hs b)
    (hX : ∀ p ∈ assigned, X p) :
    Ends (fun p b' => p ≠ q → ∀ id g, Underway X q x (.leaf id p g :: hs) b')
      (fun _ _ => True) (env.claim assigned b) := by
  have hclaimed {p : UInt32} (hp : X p ∨ x.next ≤ p) (id : ControllerId) (g : Nat) :
      ∀ h ∈ Handle.leaf id p g :: hs, x.live h ∨ h.Later X x.next :=
    List.forall_mem_cons.2 ⟨.inr hp, h.handles⟩
  cases assigned with
  | some p =>
      have hp : X p := hX p rfl
      rw [claim]
      split
      · next ids hadd =>
          intro hne id g
          have hids : (b.ids.add p).2 = ids := congrArg Prod.snd hadd
          subst hids
          exact ⟨h.counting.add hp hne, h.next.trans_eq PartitionIds.next_add.symm,
            hclaimed (.inl hp) id g⟩
      · trivial
  | none =>
      rw [claim]
      split
      · next hroom =>
          intro hne id g
          obtain ⟨hcounting, hfrom, hnext⟩ := h.counting.allocate hroom hne
          exact ⟨hcounting, UInt32.le_trans h.next hnext,
            hclaimed (.inr (UInt32.le_trans h.next hfrom)) id g⟩
      · trivial

/-- The log has gone on from a moment of the past, controllers remember identifiers with `X` only,
and the numbering is under way unless it has come to `q`. -/
structure Numbered (X : UInt32 → Prop) (since : Nat) (q : UInt32) (x : Past) (below : List Level)
    (post : Post) (s : Children below × Books) : Prop where
  begun : since ≤ x.trace.length
  trace : x.trace <+: s.2.trace
  recalls : s.1.All (fun _ c _ => c.scheme.Recalls X) below
  course : s.2.Named since q ∨ Underway X q x (s.1.handles post.id) s.2

theorem Numbered.lapse {children children' : Children below}
    (h : Numbered X since q x below post (children, b)) (hb : b.Lapses X q b')
    (hall : children'.All (fun _ c _ => c.scheme.Recalls X) below)
    (hhandles : children'.handles post.id ⊆ children.handles post.id) :
    Numbered X since q x below post (children', b') where
  begun := h.begun
  trace := h.trace.trans hb.trace
  recalls := hall
  course := h.course.imp (fun hnamed => hnamed.mono hb.trace) fun hunder =>
    ⟨hb.counting hunder.counting, hb.next ▸ hunder.next, fun g hg => hunder.handles g (hhandles hg)⟩

theorem Numbered.now {children : Children below} {live : Handle → Prop}
    (h : Numbered X since q x below post (children, b))
    (hlive : ∀ g ∈ children.handles post.id, live g) :
    Numbered X since q ⟨b.trace, b.ids.next, live⟩ below post (children, b) :=
  ⟨Nat.le_trans h.begun h.trace.length_le, List.prefix_refl _, h.recalls,
    h.course.imp (fun hn => hn) fun hu =>
      ⟨hu.counting, UInt32.le_refl _, fun g hg => .inl (hlive g hg)⟩⟩

theorem Numbered.claimed {partitions : Children []} {r : Request} {p : UInt32} (path : Path)
    (recovering : Bool) (h : Numbered X since q x [] post (partitions, b))
    (hss : env.statements ≠ []) (hr : r.Within X) (hclaim : env.claim r.assigned b = (.ok p, b'))
    (g : Nat) :
    let started := (env.startAgents path p recovering env.statements [] b').2
    b.trace <+: started.trace ∧ (started.Named since q ∨
      Underway X q x (.leaf post.id p g :: partitions.handles post.id) started) := by
  intro started
  have htrace : b'.trace = b.trace := claim_trace.congr hclaim
  have hnotes : b'.Notes started := Books.notes_startAgents
  have hgrown : b.trace <+: started.trace := htrace ▸ hnotes.trace
  refine ⟨hgrown, ?_⟩
  rcases h.course with hnamed | hunder
  · exact .inl (hnamed.mono hgrown)
  · by_cases hq : p = q
    · subst hq
      exact .inl (Books.named_startAgents hss (htrace ▸ h.begun.trans h.trace.length_le))
    · exact .inr ((((claim_underway hunder hr.assigned).congr hclaim) hq post.id g).lapse
        hnotes.lapses)

theorem startPartition_numbered {path : Path} {owner : Controller} {r : Request}
    (hss : env.statements ≠ []) (hr : r.Within X) :
    Keeps (Numbered X since q x [] owner.post) (env.startPartition owner path r) := by
  rintro ⟨partitions, b⟩ h
  let partitions : Table Running := partitions
  let children : Children [] := partitions
  simp only [startPartition]
  split
  · exact h
  · split
    · next e b₁ heq =>
        obtain rfl : b₁ = b := claim_trace.congr heq
        exact h
    · next p b₁ heq =>
        have hclaimed := h.claimed (path ++ [⟨owner.level, r.key, capture r⟩]) r.recovered.isSome
          hss hr heq
        split
        · next e b₂ hstart =>
            rw [hstart] at hclaimed
            obtain ⟨hgrown, hcourse⟩ := hclaimed 0
            have hreleased : b₂.Lapses X q (b₂.release p) := (Books.Lapses.refl b₂).release p
            exact ⟨h.begun, h.trace.trans hgrown, trivial, hcourse.imp (fun hn => hn) fun hu =>
              (hu.lapse hreleased).subset (List.subset_cons_self _ _)⟩
        · next agents b₂ hstart =>
            rw [hstart] at hclaimed
            have hinsert {running : Running} {b₃ : Books} (hb : b₂.Notes b₃) :
                Numbered X since q x [] owner.post (partitions.insert p running,
                  ({ b₃ with nextGeneration := b₃.nextGeneration + 1 }.count
                    Metrics.countCreated).updateGauge) := by
              let a : Child [] := running
              obtain ⟨hgrown, hcourse⟩ := hclaimed running.generation
              have hlapse : b₂.Lapses X q ({ b₃ with nextGeneration := b₃.nextGeneration + 1 }.count
                  Metrics.countCreated).updateGauge :=
                hb.lapses.trans ⟨List.prefix_refl _, rfl, fun hc => hc⟩
              refine ⟨h.begun, h.trace.trans (hgrown.trans hlapse.trace), trivial,
                hcourse.imp (fun hn => hn.mono hlapse.trace) fun hu => ?_⟩
              refine (hu.lapse hlapse).subset fun g hg => ?_
              rcases Children.handles_of_insert children a rfl hg with hg | hg
              · exact List.mem_cons.2 (.inl (List.mem_singleton.1 hg))
              · exact List.mem_cons_of_mem _ hg
            cases r.trigger with
            | none => exact hinsert (.refl b₂)
            | some e => exact hinsert Books.notes_offerAll

theorem endChild_numbered {id : ControllerId} {h : Handle} {termination : Option Props} :
    Keeps (Numbered X since q x below post) (env.endChild termination below id h) := by
  rintro ⟨children, b⟩ hs
  by_cases hlive : ∃ e ∈ children.table.entries, h = e.2.handle id e.1
  · obtain ⟨⟨k, a⟩, hmem, rfl⟩ := hlive
    have hclosed : b.Lapses X q (env.closeChild termination (k, a) b).2 := by
      cases below with
      | nil => exact (Books.Lapses.refl b).closePartition.noted ((Books.Notes.refl _).count _)
      | cons m below => exact (Books.Lapses.refl b).closeAll
    rw [endChild_live hmem]
    exact ends_of_state (hs.lapse hclosed hs.recalls.erase fun g hg =>
      Children.handles_of_erase children children.table_erase hg)
  · rw [endChild_stale hlive]
    exact hs

theorem Numbered.part {below' : List Level} {post' : Post} {children : Children below}
    {inner : Children below'} (h : Numbered X since q x below post (children, b))
    (hall : inner.All (fun _ c _ => c.scheme.Recalls X) below')
    (hhandles : inner.handles post'.id ⊆ children.handles post.id) :
    Numbered X since q { x with trace := b.trace } below' post' (inner, b) :=
  ⟨Nat.le_trans h.begun h.trace.length_le, List.prefix_refl _, hall, h.course.imp (fun hn => hn)
    fun hu => ⟨hu.counting, hu.next, fun g hg => hu.handles g (hhandles hg)⟩⟩

theorem Numbered.whole {below' : List Level} {post' : Post} {children children' : Children below}
    {inner : Children below'} (h : Numbered X since q x below post (children, b))
    (h' : Numbered X since q { x with trace := b.trace } below' post' (inner, b'))
    (hall : children'.All (fun _ c _ => c.scheme.Recalls X) below)
    (hhandles : ∀ g ∈ children'.handles post.id, g ∈ children.handles post.id ∨
      g.Later X x.next ∨ g ∈ inner.handles post'.id) :
    Numbered X since q x below post (children', b') := by
  refine ⟨h.begun, h.trace.trans h'.trace, hall, ?_⟩
  rcases h.course with hnamed | hunder
  · exact .inl (hnamed.mono h'.trace)
  · refine h'.course.imp (fun hn => hn) fun hunder' => ⟨hunder'.counting, hunder'.next, ?_⟩
    intro g hg
    rcases hhandles g hg with hg | hg | hg
    · exact hunder.handles g hg
    · exact .inr hg
    · exact hunder'.handles g hg

theorem numbered_custody (hss : env.statements ≠ []) :
    env.Custody (.within X) (fun _ r => r.Within X) (Numbered X since q) where
  asks h := h
  hands h _ := h.recovered
  number hs := ⟨hs.begun, hs.trace, hs.recalls, hs.course.imp (fun h => h)
    fun h => ⟨h.counting, h.next, h.handles⟩⟩
  partition hr := startPartition_numbered hss hr
  sprout {x post m below r branches b} _ hs _ := by
    let children : Children (m :: below) := branches
    have hfresh : Numbered X since q x (m :: below) post
        (branches, { b with nextController := b.nextController + 1 }) :=
      hs.lapse ⟨List.prefix_refl _, rfl, fun h => h⟩ hs.recalls (List.Subset.refl _)
    refine ⟨{ x with trace := b.trace }, hfresh.part Children.all_empty (by simp),
      fun node b' hpost hknows hnode => ⟨?_, ?_⟩⟩
    · let branch : Branch (Children below) := ⟨r.key, r.properties, node⟩
      let a : Child (m :: below) := branch
      refine hs.whole hnode (hs.recalls.insert ⟨hknows, hnode.recalls⟩) fun g hg => ?_
      rcases Children.handles_of_insert children a rfl hg with hg | hg
      · rcases List.mem_cons.1 hg with rfl | hg
        · exact .inr (.inl trivial)
        · exact .inr (.inr hg)
      · exact .inl hg
    · have hback : Numbered X since q x (m :: below) post (branches, b') :=
        hs.whole hnode hs.recalls fun g hg => .inl hg
      exact hback.lapse (Books.Lapses.refl b').closeAll hs.recalls (List.Subset.refl _)
  stop := endChild_numbered
  descend {x post m below k branch branches b} hs hmem := by
    let children : Children (m :: below) := branches
    let e : UInt32 × Child (m :: below) := (k, branch)
    obtain ⟨hknows, hall⟩ := hs.recalls e hmem
    refine ⟨hknows, { x with trace := b.trace }, hs.part hall fun g hg =>
      Children.mem_handles.2 ⟨e, hmem, List.mem_cons_of_mem _ hg⟩, ?_⟩
    intro node b' _ hknows' hnode
    let branch' : Branch (Children below) := { branch with node }
    let a : Child (m :: below) := branch'
    refine hs.whole hnode (hs.recalls.insert ⟨hknows', hnode.recalls⟩) fun g hg => ?_
    rcases Children.handles_of_insert children a rfl hg with hg | hg
    · rcases List.mem_cons.1 hg with rfl | hg
      · exact .inr (.inl trivial)
      · exact .inr (.inr hg)
    · exact .inl hg
  offer {x post p r partitions b e} hs hmem := by
    let children : Children [] := partitions
    let running : Running := { r with agents := r.agents.map fun a => a.evaluate e }
    let a : Child [] := running
    refine hs.lapse Books.notes_offerAll.lapses trivial fun g hg => ?_
    rcases Children.handles_of_insert children a rfl hg with hg | hg
    · exact Children.mem_handles.2 ⟨(p, r), hmem, hg⟩
    · exact hg

end Setting

end EventContexts
