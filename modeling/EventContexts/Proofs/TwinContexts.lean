import EventContexts.Proofs.TwinSteps
import EventContexts.Proofs.Visits

namespace EventContexts

open Act

theorem Node.controllersAt_twins {keep : StatementId → Bool} {runtime : Runtime}
    {below : List Level} {n n' : Node (Children below)}
    (hn : n.Rel (Children.Twins keep runtime below) n')
    (depth : Nat) : n.controllersAt below depth = n'.controllersAt below depth := by
  induction below generalizing depth with
  | nil =>
      cases depth with
      | zero => exact congrArg (fun c => [c]) hn.controller
      | succ depth => rfl
  | cons l below ih =>
      cases depth with
      | zero => exact congrArg (fun c => [c]) hn.controller
      | succ depth =>
          have hbranches : Table.Rel (Branch.Rel (Children.Twins keep runtime below)) n.children
            n'.children := hn.children
          refine List.Forall₂.flatMap_eq (hbranches.imp ?_)
          exact fun _ _ hb => ih hb.2.node depth

namespace Context

variable {keep : StatementId → Bool} {anchor : StatementId} {runtime : Runtime} {c c' : Context}
  {s : Statement} {id : StatementId}

theorem isAttached_iff : c.isAttached id = true ↔ id ∈ c.statements.map Statement.id := by
  rw [isAttached, List.any_eq_true, List.mem_map]
  exact exists_congr fun s => and_congr_right fun _ => beq_iff_eq

structure Rolls (keep : StatementId → Bool) (anchor : StatementId) (ss ss' : List Statement) :
    Prop where
  kept : (ss.filter fun s => keep s.id) = ss'.filter fun s => keep s.id
  anchored : anchor ∈ ss.map Statement.id
  anchored' : anchor ∈ ss'.map Statement.id

section rolls

variable {ss ss' : List Statement}

theorem mem_ids_append (h : anchor ∈ ss.map Statement.id) :
    anchor ∈ (ss ++ [s]).map Statement.id := by
  rw [List.map_append]
  exact List.mem_append_left _ h

theorem mem_ids_without (h : anchor ∈ ss.map Statement.id) (hne : id ≠ anchor) :
    anchor ∈ (ss.filter fun s => s.id ≠ id).map Statement.id := by
  obtain ⟨s, hs, rfl⟩ := List.mem_map.1 h
  exact List.mem_map.2 ⟨s, List.mem_filter.2 ⟨hs, decide_eq_true hne.symm⟩, rfl⟩

theorem length_ne_one (h : anchor ∈ ss.map Statement.id) (hid : id ∈ ss.map Statement.id)
    (hne : id ≠ anchor) : ss.length ≠ 1 := by
  intro hlength
  obtain ⟨s, rfl⟩ := List.length_eq_one_iff.1 hlength
  rw [List.map_singleton, List.mem_singleton] at h hid
  exact hne (hid.trans h.symm)

namespace Rolls

theorem mem_iff (h : Rolls keep anchor ss ss') (hkeep : keep id = true) :
    id ∈ ss.map Statement.id ↔ id ∈ ss'.map Statement.id := by
  have hkept (ss : List Statement) :
      id ∈ (ss.filter fun s => keep s.id).map Statement.id ↔ id ∈ ss.map Statement.id := by
    simp only [List.mem_map, List.mem_filter]
    exact exists_congr fun s =>
      ⟨fun ⟨hs, hid⟩ => ⟨hs.1, hid⟩, fun ⟨hs, hid⟩ => ⟨⟨hs, hid ▸ hkeep⟩, hid⟩⟩
  rw [← hkept ss, ← hkept ss', h.kept]

theorem append (h : Rolls keep anchor ss ss') (s : Statement) :
    Rolls keep anchor (ss ++ [s]) (ss' ++ [s]) := by
  refine ⟨?_, mem_ids_append h.anchored, mem_ids_append h.anchored'⟩
  rw [List.filter_append, List.filter_append, h.kept]

theorem append_other (h : Rolls keep anchor ss ss') (hother : keep s.id = false) :
    Rolls keep anchor ss (ss' ++ [s]) := by
  refine ⟨?_, h.anchored, mem_ids_append h.anchored'⟩
  have hnone : [s].filter (fun s => keep s.id) = [] := by
    simp [hother]
  rw [List.filter_append, hnone, List.append_nil, h.kept]

theorem without (h : Rolls keep anchor ss ss') (hne : id ≠ anchor) :
    Rolls keep anchor (ss.filter fun s => s.id ≠ id) (ss'.filter fun s => s.id ≠ id) := by
  refine ⟨?_, mem_ids_without h.anchored hne, mem_ids_without h.anchored' hne⟩
  rw [List.filter_comm, h.kept, List.filter_comm]

theorem without_other (h : Rolls keep anchor ss ss') (hother : keep id = false)
    (hne : id ≠ anchor) : Rolls keep anchor ss (ss'.filter fun s => s.id ≠ id) := by
  refine ⟨?_, h.anchored, mem_ids_without h.anchored' hne⟩
  rw [h.kept, List.filter_comm]
  refine (List.filter_eq_self.2 fun s hs => decide_eq_true ?_).symm
  have hkept : keep s.id = true := (List.mem_filter.1 hs).2
  rintro rfl
  cases hkept.symm.trans hother

end Rolls

end rolls

/-- Two live contexts that differ in statements which do not matter, with one attached to both. -/
inductive Twins (keep : StatementId → Bool) (anchor : StatementId) (runtime : Runtime) :
    Context → Context → Prop where
  | intro (c : Context) {ss ss' : List Statement}
      {root root' : Node (Children c.declaration.inner)} {b b' : Books}
      (rolls : Rolls keep anchor ss ss')
      (node : root.Rel (Children.Twins keep runtime c.declaration.inner) root')
      (books : b.Twins b') :
      Twins keep anchor runtime { c with statements := ss, root := some root, books := b }
        { c with statements := ss', root := some root', books := b' }

theorem Twins.setting (h : c.Twins keep anchor runtime c') (hruntime : runtime.Unfailing) :
    (c.setting runtime).Twins keep (c'.setting runtime) := by
  cases h with
  | intro c rolls node books => exact ⟨rfl, rfl, rolls.kept, rfl, rfl, hruntime⟩

theorem Twins.isAttached (h : c.Twins keep anchor runtime c') (hkeep : keep id = true) :
    c.isAttached id = c'.isAttached id := by
  cases h with
  | intro c rolls node books =>
      rw [Bool.eq_iff_iff, isAttached_iff, isAttached_iff]
      exact rolls.mem_iff hkeep

theorem alike_atController {α : Type}
    {f : Setting → (below : List Level) → Path → Act (Node (Children below) × Books) α}
    (hf : ∀ {c c' : Context}, c.Twins keep anchor runtime c' → ∀ below path,
      Alike (Node.Twins keep runtime below) (f (c.setting runtime) below path)
        (f (c'.setting runtime) below path)) (target : ControllerId) (r : Except Error α) :
    Alike (Context.Twins keep anchor runtime)
      (fun c => (c.onRoot fun tree =>
        Node.atController target (f (c.setting runtime)) _ [] tree).getD (r, c))
      (fun c => (c.onRoot fun tree =>
        Node.atController target (f (c.setting runtime)) _ [] tree).getD (r, c)) := by
  refine ⟨fun {c c'} h => ?_⟩
  have hstep := hf h
  cases h with
  | @intro c ss ss' root root' b b' rolls node books =>
      have hs : Node.Twins keep runtime c.declaration.inner (root, b) (root', b') := ⟨node, books⟩
      have hvisit := @Node.atController_twins _ _ _ _ _ hstep target _ [] _ _ hs
      simp only [onRoot]
      revert hvisit
      cases Node.atController target _ _ _ (root, b) <;>
        cases Node.atController target _ _ _ (root', b') <;>
        rintro (⟨hresult, hroot, hbooks⟩ | -)
      · exact ⟨rfl, .intro c rolls node books⟩
      · exact ⟨hresult, .intro c rolls hroot hbooks⟩

theorem alike_process (hruntime : runtime.Unfailing) (e : Event) :
    Alike (Context.Twins keep anchor runtime) (process runtime e) (process runtime e) := by
  refine ⟨fun {c c'} h => ?_⟩
  have hoffer := Setting.alike_offer (h.setting hruntime) e
  cases h with
  | @intro c ss ss' root root' b b' rolls node books =>
      obtain ⟨hresult, hroot, hbooks⟩ := (hoffer c.declaration.inner []).run (s := (root, b))
        (t := (root', b')) ⟨node, books⟩
      exact ⟨hresult, .intro c rolls hroot hbooks⟩

theorem alike_driveEach (hruntime : runtime.Unfailing)
    {x : {σ : Type} → Lifecycle σ → Act (Controller × σ) Unit}
    (hx : ∀ {σ : Type} {R : σ → σ → Prop} {life life' : Lifecycle σ}, life.Alike R life' →
      Alike (Beside R) (x life) (x life')) (ids : List ControllerId) :
    Alike (Context.Twins keep anchor runtime) (driveEach runtime x ids)
      (driveEach runtime x ids) :=
  alike_forEach (fun id => alike_atController (f := fun env below path => env.drive below path x)
    (fun h _ path => Setting.alike_drive (h.setting hruntime) path hx) id (.ok ())) ids

theorem alike_advance (hruntime : runtime.Unfailing) (now : Int64) :
    Alike (Context.Twins keep anchor runtime) (advance runtime now) (advance runtime now) := by
  refine ⟨fun {c c'} h => ?_⟩
  cases h with
  | @intro c ss ss' root root' b b' rolls node books =>
      have hids : root.controllers c.declaration.inner = root'.controllers c.declaration.inner :=
        List.flatMap_congr fun depth _ => Node.controllersAt_twins node depth
      simp only [advance, controllers, hids]
      exact (alike_driveEach hruntime (fun hlife => Controller.alike_tick hlife now) _).run
        (.intro { c with now } rolls node books)

theorem alike_restrict (hruntime : runtime.Unfailing) (level : Nat) (ranges : List BucketRange) :
    Alike (Context.Twins keep anchor runtime) (restrict runtime level ranges)
      (restrict runtime level ranges) := by
  refine ⟨fun {c c'} h => ?_⟩
  cases h with
  | @intro c ss ss' root root' b b' rolls node books =>
      have hids := Node.controllersAt_twins node (level - 1)
      have htwins := Twins.intro c rolls node books
      by_cases hlevel : level = 0 ∨ c.declaration.depth < level
      · simp only [restrict, depth, hlevel, if_true]
        exact ⟨trivial, htwins⟩
      · simp only [restrict, depth, hlevel, if_false, hids]
        exact (alike_driveEach hruntime (fun hlife => Controller.alike_restrict hlife ranges)
          _).run htwins

theorem alike_instantiate (hruntime : runtime.Unfailing) (originator : ControllerId)
    (r : Request) : Alike (Context.Twins keep anchor runtime) (instantiate runtime originator r)
      (instantiate runtime originator r) :=
  alike_atController (f := fun env => env.startAt r)
    (fun h => Setting.alike_startAt (h.setting hruntime) r) originator
    (.error (.controllerUnknown originator))

theorem alike_terminate (hruntime : runtime.Unfailing) (handle : Handle)
    (termination : Option Props) : Alike (Context.Twins keep anchor runtime)
      (terminate runtime handle termination) (terminate runtime handle termination) :=
  alike_atController (f := fun env below _ => env.endAt handle termination below)
    (fun h below _ => Setting.alike_endAt (h.setting hruntime) handle termination below)
    handle.owner (.ok ())

theorem alike_attach (hruntime : runtime.Unfailing) (hkeep : keep s.id = true) :
    Alike (Context.Twins keep anchor runtime) (attach runtime s) (attach runtime s) := by
  refine ⟨fun {c c'} h => ?_⟩
  have hattached := h.isAttached hkeep
  cases h with
  | @intro c ss ss' root root' b b' rolls node books =>
      have htwins := Twins.intro c rolls node books
      have hjoined := Twins.intro c (rolls.append s) node books
      simp only [attach, hattached]
      split
      · exact ⟨rfl, htwins⟩
      · cases Declaration.checkAll (fun l => Level.validate l s) c.declaration.levels with
        | error e => exact ⟨rfl, htwins⟩
        | ok =>
            simp only
            refine (Setting.startEverywhere_twins (hjoined.setting hruntime) s node books).elim
              fun grown grown' b b' hgrown hbooks => ?_
            exact ⟨rfl, .intro c (rolls.append s) hgrown hbooks⟩

theorem Twins.attach_other (h : c.Twins keep anchor runtime c') (hruntime : runtime.Unfailing)
    (hother : keep s.id = false) : c.Twins keep anchor runtime (attach runtime s c').2 := by
  cases h with
  | @intro c ss ss' root root' b b' rolls node books =>
      have htwins := Twins.intro c rolls node books
      have hjoined := Twins.intro c (rolls.append_other hother) node books
      simp only [attach]
      split
      · exact htwins
      · cases Declaration.checkAll (fun l => Level.validate l s) c.declaration.levels with
        | error e => exact htwins
        | ok =>
            obtain ⟨grown, b', hstart, hgrown, hbooks⟩ :=
              Setting.startEverywhere_other (hjoined.setting hruntime) hother node books
            simp only [hstart]
            exact .intro c (rolls.append_other hother) hgrown hbooks

theorem alike_detach (hruntime : runtime.Unfailing) (hkeep : keep id = true) (hne : id ≠ anchor) :
    Alike (Context.Twins keep anchor runtime) (detach runtime id) (detach runtime id) := by
  refine ⟨fun {c c'} h => ?_⟩
  have hattached := h.isAttached hkeep
  cases h with
  | @intro c ss ss' root root' b b' rolls node books =>
      have hleft := Twins.intro c (rolls.without hne) node books
      simp only [detach, hattached]
      cases hid : isAttached { c with statements := ss', root := some root', books := b' } id with
      | false => exact ⟨rfl, .intro c rolls node books⟩
      | true =>
          -- The anchor stays on both sides, so neither loses its tree.
          have hlength : ss.length ≠ 1 :=
            length_ne_one rolls.anchored (isAttached_iff.1 (hattached.trans hid)) hne
          have hlength' : ss'.length ≠ 1 :=
            length_ne_one rolls.anchored' (isAttached_iff.1 hid) hne
          obtain ⟨hresult, hroot, hbooks⟩ :=
            Setting.stopEverywhere_twins (hleft.setting hruntime) id node books
          simp only [Bool.not_true, Bool.false_eq_true, if_false, hlength, hlength']
          exact ⟨hresult, .intro c (rolls.without hne) hroot hbooks⟩

theorem Twins.detach_other (h : c.Twins keep anchor runtime c') (hruntime : runtime.Unfailing)
    (hother : keep id = false) (hne : id ≠ anchor) :
    c.Twins keep anchor runtime (detach runtime id c').2 := by
  cases h with
  | @intro c ss ss' root root' b b' rolls node books =>
      have hleft := Twins.intro c (rolls.without_other hother hne) node books
      simp only [detach]
      cases hid : Context.isAttached
          { c with statements := ss', root := some root', books := b' } id with
      | false => exact .intro c rolls node books
      | true =>
          have hlength : ss'.length ≠ 1 :=
            length_ne_one rolls.anchored' (isAttached_iff.1 hid) hne
          obtain ⟨hroot, hbooks⟩ :=
            Setting.stopEverywhere_other (hleft.setting hruntime) hother node books
          simp only [Bool.not_true, Bool.false_eq_true, if_false, hlength]
          exact .intro c (rolls.without_other hother hne) hroot hbooks

theorem twins_of_attach (hruntime : runtime.Unfailing) (hroot : c.root = none)
    (h : attach runtime s c = (.ok (), c')) : c'.Twins keep s.id runtime c' := by
  obtain ⟨-, -, hawaken⟩ := (attach_ok_iff hroot).1 h
  let attached : Context := { c with statements := c.statements ++ [s] }
  have hself : (attached.setting runtime).Twins keep (attached.setting runtime) :=
    ⟨rfl, rfl, rfl, rfl, rfl, hruntime⟩
  let activation : Activation := { recovered := c.recovery.getD [], now := c.now }
  let start : Node (Children c.declaration.inner) × Books :=
    (⟨Controller.create c.declaration.outer ⟨c.books.nextController⟩ 0 1, Children.empty _⟩,
      { c.books with nextController := c.books.nextController + 1 })
  have hstart : Node.Twins keep runtime c.declaration.inner start start :=
    ⟨⟨rfl, Children.twins_empty⟩, rfl, rfl, rfl⟩
  have hgrown := ((Setting.alike_drive (x := fun life => Controller.activate life activation)
    hself [] Controller.alike_activate).run hstart).2
  simp only [awaken] at hawaken
  split at hawaken
  · next root books hdrive =>
      obtain rfl := (Prod.mk.inj hawaken).2
      have hanchor : s.id ∈ (c.statements ++ [s]).map Statement.id :=
        List.mem_map.2 ⟨s, List.mem_append_right _ (List.mem_singleton.2 rfl), rfl⟩
      simp only [start, activation, attached, hdrive] at hgrown
      exact .intro { attached with recovery := none } ⟨rfl, hanchor, hanchor⟩ hgrown.node
        hgrown.books
  · cases hawaken

end Context

end EventContexts
