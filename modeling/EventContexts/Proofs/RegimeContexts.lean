import EventContexts.Proofs.Regimes

namespace EventContexts

open Act

def Operation.occasion (plain : Prop) (op : Operation) : Occasion where
  event :=
    match op with
    | .process e => some e
    | _ => none
  plain := plain

/-- `P` of a controller comes with its activation and outlasts the steps that an operation has it
take, up to `Q` where these fail. -/
structure Operation.Habit (op : Operation) (since : Nat) (L : Level → Prop)
    (P Q : Controller → Prop) : Prop where
  wakes : Wakes since L P
  lasting : ∀ c, P c → Q c
  route : ∀ {σ : Type} (life : Lifecycle σ) (e : Event), op = .process e →
    Triple (fun p => P p.1) (Controller.route life e) (fun _ p => P p.1) fun _ p => Q p.1
  tick : ∀ {σ : Type} (life : Lifecycle σ) (now : Int64), op = .advance now →
    Triple (fun p => P p.1) (Controller.tick life now) (fun _ p => P p.1) fun _ p => Q p.1
  restrict : ∀ {σ : Type} (life : Lifecycle σ) (level : Nat) (ranges : List BucketRange),
    op = .restrict level ranges →
      Triple (fun p => P p.1) (Controller.restrict life ranges) (fun _ p => P p.1) fun _ p => Q p.1

theorem habit_any {op : Operation} {since : Nat} {L : Level → Prop} :
    op.Habit since L (fun _ => True) fun _ => True where
  wakes _ _ _ _ _ _ _ _ _ := ends_of_state (P := fun _ => True) trivial
  lasting _ h := h
  route _ _ _ _ _ := ends_of_state (P := fun _ => True) trivial
  tick _ _ _ _ _ := ends_of_state (P := fun _ => True) trivial
  restrict _ _ _ _ _ _ := ends_of_state (P := fun _ => True) trivial

theorem regime_any {o : Occasion} {since : Nat} {L : Level → Prop} (ho : ¬ o.plain) :
    Regime o since L (fun _ => True) fun _ _ _ => True where
  fresh _ _ := trivial
  leaf _ _ := trivial
  branch _ _ _ _ := trivial
  ended _ _ _ _ := trivial
  notes _ _ := trivial
  plain h := absurd h ho
  tells _ := trivial
  claimed _ _ := trivial
  occupied _ _ _ := trivial

namespace Context

variable {o : Occasion} {since : Nat} {L : Level → Prop} {E : Error → Prop}
  {N G G' T : Outlook} {P Q : Controller → Prop} {c : Context} {runtime : Runtime} {α : Type}

/-- `G` of every node, and `L` of every level. All controllers to come have numbers from `since`
on. -/
structure Reigns (L : Level → Prop) (G : Outlook) (since : Nat) (c : Context) : Prop where
  levels : ∀ l ∈ c.declaration.levels, L l
  since : since ≤ c.books.nextController
  tree : ∀ root ∈ c.root, root.All G c.declaration.inner

namespace Reigns

theorem mono (h : c.Reigns L G since) (hG : ∀ below c xs, G below c xs → G' below c xs) :
    c.Reigns L G' since :=
  ⟨h.levels, h.since, fun root hroot => ⟨hG _ _ _ (h.tree root hroot).1,
    (h.tree root hroot).2.mono hG⟩⟩

theorem of_entries {F : Controller → List (Key × Handle) → Prop}
    (hl : ∀ l ∈ c.declaration.levels, L l) (hb : since ≤ c.books.nextController)
    (h : ∀ x ∈ c.entries, F x.controller x.handles) : c.Reigns L (fun _ => F) since := by
  refine ⟨hl, hb, fun root hroot => ?_⟩
  rw [entries_of_root hroot] at h
  exact Node.all_iff.2 h

theorem entries {F : Controller → List (Key × Handle) → Prop}
    (h : c.Reigns L (fun _ => F) since) : ∀ x ∈ c.entries, F x.controller x.handles := by
  intro x hx
  cases hroot : c.root with
  | none => simp [Context.entries, hroot] at hx
  | some root =>
      rw [entries_of_root hroot] at hx
      exact Node.all_iff.1 (h.tree root hroot) x hx

theorem and (h : c.Reigns L G since) (h' : c.Reigns L G' since) :
    c.Reigns L (fun below x xs => G below x xs ∧ G' below x xs) since :=
  ⟨h.levels, h.since, fun root hroot => ⟨⟨(h.tree root hroot).1, (h'.tree root hroot).1⟩,
    (h.tree root hroot).2.and (h'.tree root hroot).2⟩⟩

theorem inner (h : c.Reigns L G since) : ∀ l ∈ c.declaration.inner, L l :=
  fun l hl => h.levels l (List.mem_cons_of_mem _ hl)

theorem throughout (h : c.Reigns L G since) {root : Node (Children c.declaration.inner)}
    (hroot : c.root = some root) :
    Throughout G root.controller.id since c.declaration.inner (root, c.books) :=
  ⟨rfl, h.tree root hroot, h.since⟩

theorem onRoot {d : Except Error α × Context}
    {f : Node (Children c.declaration.inner) × Books →
      Option (Except Error α × (Node (Children c.declaration.inner) × Books))}
    (h : c.Reigns L G since)
    (hf : ∀ root, Throughout G root.controller.id since c.declaration.inner (root, c.books) →
      ∀ o ∈ f (root, c.books),
        Ends (fun _ => Throughout G' root.controller.id since c.declaration.inner)
          (fun e s => E e ∧ Throughout T root.controller.id since c.declaration.inner s) o)
    (hd : Ends (fun _ => Reigns L G' since) (fun e c => E e ∧ c.Reigns L T since) d) :
    Ends (fun _ => Reigns L G' since) (fun e c => E e ∧ c.Reigns L T since)
      ((c.onRoot f).getD d) := by
  rw [Context.onRoot]
  split
  · exact hd
  · next root hroot =>
      cases hs : f (root, c.books) with
      | none => exact hd
      | some o =>
          have hdone := hf root (h.throughout hroot) o hs
          obtain ⟨_ | _, s⟩ := o
          · refine ⟨hdone.1, h.levels, hdone.2.since, ?_⟩
            rintro _ ⟨⟩
            exact hdone.2.all
          · refine ⟨h.levels, hdone.since, ?_⟩
            rintro _ ⟨⟩
            exact hdone.all

end Reigns

section steps

variable (hN : Regime o since L E N) (hP : Wakes since L P) (hPQ : ∀ c, P c → Q c)

include hN hP hPQ

theorem process_reigns {e : Event} (he : o.event = some e)
    (hroute : ∀ {σ : Type} (life : Lifecycle σ), Triple (fun p => P p.1) (Controller.route life e)
      (fun _ p => P p.1) fun _ p => Q p.1) :
    Triple (Reigns L (Steady N P) since) (process runtime e) (fun _ => Reigns L (Steady N P) since)
      fun e c => E e ∧ c.Reigns L (Steady N Q) since := by
  intro c h
  refine h.onRoot (fun root hroot => ?_) h
  rintro _ ⟨⟩
  exact Setting.offer_steady hN hP hPQ he hroute h.inner _ hroot

theorem driveEach_reigns {x : {σ : Type} → Lifecycle σ → Act (Controller × σ) Unit}
    {ids : List ControllerId}
    (hx : ∀ id ∈ ids, ∀ {below : List Level} {c : Controller} {t : Children below × Books}
      {life : Lifecycle (Children below × Books)}, c.id = id → P c →
        Midway N P since c below c.scheme t → life.Bears o (Midway N P since c below) E →
          Ends (fun _ => c.Bearing (Midway N P since c below))
            (fun e p => E e ∧ c.Bearing (Midway N P since c below) p) (x life (c, t)))
    (hserved : ∀ {σ : Type} (life : Lifecycle σ), Triple (fun p => P p.1) (x life)
      (fun _ p => P p.1) fun _ p => Q p.1) :
    Triple (Reigns L (Steady N P) since) (driveEach runtime x ids)
      (fun _ => Reigns L (Steady N P) since) fun e c => E e ∧ c.Reigns L (Steady N Q) since := by
  refine triple_forEach fun id hid => ?_
  intro c h
  refine h.onRoot (fun root hroot o ho => ?_) h
  refine Setting.atController_throughout (fun _ _ _ h => h) (fun _ _ _ h => ⟨h.1, hPQ _ h.2⟩)
    h.inner (fun hl => ?_) hroot ho
  rintro ⟨node, b⟩ ⟨rfl, hall, hb⟩
  exact Setting.drive_steady hN hP hPQ hl
    (fun life hlife => hx _ hid rfl hall.1.2 (hall.midway hb) hlife) (hserved _ _ hall.1.2)

theorem advance_reigns {now : Int64}
    (htick : ∀ {σ : Type} (life : Lifecycle σ), Triple (fun p => P p.1) (Controller.tick life now)
      (fun _ p => P p.1) fun _ p => Q p.1) :
    Triple (Reigns L (Steady N P) since) (advance runtime now)
      (fun _ => Reigns L (Steady N P) since) fun e c => E e ∧ c.Reigns L (Steady N Q) since := by
  intro c h
  refine driveEach_reigns hN hP hPQ (fun id _ {below c t life} _ _ ht hlife => ?_) htick
    { c with now } ⟨h.levels, h.since, h.tree⟩
  exact Controller.bears_run (Scheme.bears_tick hlife now (c.scheme, t) ht)

theorem restrict_reigns {level : Nat} {ranges : List BucketRange}
    (hconfined : level ≠ 0 → ∀ root ∈ c.root, ∀ below (x : Controller) xs,
      x.id ∈ (root.controllersAt c.declaration.inner (level - 1)).map Controller.id →
        N below x xs → P x → N below { x with scheme := x.scheme.confined ranges } xs)
    (hrestrict : ∀ {σ : Type} (life : Lifecycle σ), Triple (fun p => P p.1)
      (Controller.restrict life ranges) (fun _ p => P p.1) fun _ p => Q p.1)
    (h : c.Reigns L (Steady N P) since) :
    Ends (fun _ => Reigns L (Steady N P) since) (fun e c => E e ∧ c.Reigns L (Steady N Q) since)
      (restrict runtime level ranges c) := by
  rw [restrict]
  split
  · exact ⟨hN.tells id, h.mono fun _ _ _ h => ⟨h.1, hPQ _ h.2⟩⟩
  · next hlevel =>
    have hlevel : level ≠ 0 := fun h => hlevel (.inl h)
    refine driveEach_reigns hN hP hPQ (fun id hid {below x t life} hx hPx ht hlife => ?_)
      hrestrict c h
    cases hroot : c.root with
    | none =>
        rw [hroot] at hid
        cases hid
    | some root =>
        rw [hroot] at hid
        have hready : Midway N P since x below (x.scheme.confined ranges) t :=
          ⟨hconfined hlevel root hroot below x _ (hx ▸ hid) ht.node hPx, ht.under, ht.since⟩
        exact Controller.bears_run (Scheme.bears_restrict hlife ranges (x.scheme, t) hready)

end steps

theorem terminate_reigns {h : Handle} {termination : Option Props}
    (hG : ∀ below c xs, G below c xs → G' below c xs)
    (hforget : ∀ below c xs, G below c xs → h ∈ xs.map Prod.snd → (xs.map Prod.snd).Nodup →
      G' below (c.forget h) (xs.filter fun e => e.2 ≠ h)) :
    Triple (Reigns L G since) (terminate runtime h termination) (fun _ => Reigns L G' since)
      fun e c => ¬ e.Internal ∧ c.Reigns L G' since := by
  intro c hc
  refine hc.onRoot (fun root hroot o ho => ?_) (hc.mono hG)
  exact Setting.atController_throughout hG hG hc.inner
    (fun _ => Setting.endAt_throughout hG hforget) hroot ho

theorem awaken_reigns (hN : Regime o since L E N) (hP : Wakes since L P)
    (h : c.Reigns L (Steady N P) since) (hplain : o.plain → c.recovery.getD [] = []) :
    Ends (fun _ => Reigns L (Steady N P) since)
      (fun e c => E e ∧ c.Reigns L (Steady N fun _ => True) since) (awaken runtime c) := by
  let fresh := c.bare.1.controller
  let start : Children c.declaration.inner × Books := (Children.empty _, c.bare.2)
  have houter : L c.declaration.outer := h.levels _ (List.mem_cons_self ..)
  have ha : c.activation.Fits o := ⟨by simp [activation], hplain⟩
  have hready : Midway N P since fresh c.declaration.inner (.ofLevel c.declaration.outer)
      start := by
    refine ⟨?_, Children.all_empty, Nat.le_succ_of_le h.since⟩
    rw [Children.roll_empty]
    exact hN.fresh houter h.since
  have hdone : Ends _ _ ((c.setting runtime).drive c.declaration.inner []
      (fun life => Controller.activate life c.activation) c.bare) :=
    Setting.drive_steady hN hP (fun _ _ => trivial) h.inner
      (fun life hlife => Controller.bears_run
        (Scheme.bears_activate hlife ha c.declaration.outer (_, start) ⟨rfl, hready⟩))
      (hP _ c.activation 0 1 start houter h.since)
  refine (ends_awaken hdone).imp ?_ ?_
  · rintro - _ ⟨root, books, rfl, hroot⟩
    refine ⟨h.levels, hroot.since, ?_⟩
    rintro _ ⟨⟩
    exact hroot.all
  · rintro e _ ⟨root, books, rfl, htells, hroot⟩
    refine ⟨htells, h.levels, hroot.since, ?_⟩
    rintro _ ⟨⟩
    exact hroot.all

theorem teardown_error {statementLevel : Bool} {e : Error}
    (h : (teardown runtime statementLevel c).1 = .error e) : ¬ e.Internal := by
  simp only [teardown] at h
  split at h
  · next root hroot =>
      exact (Books.Stops.closeAll (c.setting runtime) none root [] c.books).tells h
  · cases h

theorem Reigns.torn (h : c.Reigns L G since) (runtime : Runtime) (statementLevel : Bool) :
    (teardown runtime statementLevel c).2.Reigns L G' since := by
  obtain ⟨books, hadvances, -, heq⟩ := teardown_eq runtime statementLevel c
  rw [heq]
  exact ⟨h.levels, Nat.le_trans h.since hadvances.controllers, by simp⟩

theorem checkAll_error {ls : List Level} {s : Statement} {e : Error}
    (h : Declaration.checkAll (fun l => Level.validate l s) ls = .error e) : ¬ e.Internal := by
  induction ls with
  | nil => cases h
  | cons l rest ih =>
      simp only [Declaration.checkAll] at h
      split at h
      · exact ih h
      · next e' hvalidate =>
          obtain rfl := Except.error.inj h
          rw [Level.validate] at hvalidate
          split at hvalidate
          · split at hvalidate
            · obtain rfl := Except.error.inj hvalidate
              exact id
            · cases hvalidate
          · cases hvalidate

theorem Reigns.kin (h : c.Reigns L G since) {root root' : Node (Children c.declaration.inner)}
    (hroot : c.root = some root) (hkin : root.Kin root') {statements : List Statement}
    {books : Books} (hbooks : c.books.Notes books) :
    ({ c with root := some root', statements, books } : Context).Reigns L G since := by
  refine ⟨h.levels, hbooks.controllers ▸ h.since, ?_⟩
  rintro _ ⟨⟩
  exact hkin.all (h.tree root hroot)

theorem attach_reigns (hN : Regime o since L E N) (hP : Wakes since L P) {s : Statement}
    (h : c.Reigns L (Steady N P) since) (hplain : o.plain → c.recovery.getD [] = []) :
    Ends (fun _ => Reigns L (Steady N P) since)
      (fun e c => E e ∧ c.Reigns L (Steady N P) since) (attach runtime s c) := by
  have hattached : (c.withStatement s).Reigns L (Steady N P) since := ⟨h.levels, h.since, h.tree⟩
  have hawaken : Ends _ _ (awaken runtime (c.withStatement s)) :=
    awaken_reigns hN hP hattached hplain
  have hcase := attaches runtime s c
  generalize attach runtime s c = o at hcase ⊢
  cases hcase with
  | taken => exact ⟨hN.tells id, h⟩
  | unfit _ he => exact ⟨hN.tells (checkAll_error he), h⟩
  | joined _ hroot heq =>
      obtain ⟨-, hbooks⟩ := Setting.startEverywhere_handles.congr heq
      exact h.kin hroot (Setting.startEverywhere_kin.congr heq) hbooks
  | @unjoined _ _ books _ _ heq =>
      have hbooks : c.books.Notes books := Setting.startEverywhere_handles.congr heq
      exact ⟨hN.tells (Setting.startEverywhere_kin.congr heq), h.levels,
        hbooks.controllers ▸ h.since, h.tree⟩
  | awoken _ _ heq => exact hawaken.congr heq
  | @unawoken e c' _ _ heq =>
      obtain ⟨he, hc'⟩ := hawaken.congr heq
      -- a tree that did not wake up goes with the statement that was to wake it
      have hwithout : (c'.withoutStatement s.id).Reigns L (Steady N fun _ => True) since :=
        ⟨hc'.levels, hc'.since, hc'.tree⟩
      exact ⟨he, hwithout.torn runtime false⟩

theorem detach_reigns {id : StatementId} (h : c.Reigns L G since) :
    Ends (fun _ => Reigns L G since)
      (fun e c' => (e.Internal → e = .statementUnknown id ∧ c.isAttached id = false) ∧
        c'.Reigns L G since) (detach runtime id c) := by
  have hwithout : (c.withoutStatement id).Reigns L G since := ⟨h.levels, h.since, h.tree⟩
  have hcase := detaches runtime id c
  generalize detach runtime id c = o at hcase ⊢
  cases hcase with
  | unknown hunknown => exact ⟨fun _ => ⟨rfl, hunknown⟩, h⟩
  | last =>
      have htorn : (teardown runtime true (c.withoutStatement id)).2.Reigns L G since :=
        hwithout.torn runtime true
      rcases ht : teardown runtime true (c.withoutStatement id) with ⟨e | u, c'⟩
      · rw [ht] at htorn
        exact ⟨fun he => absurd he (teardown_error (congrArg Prod.fst ht)), htorn⟩
      · rw [ht] at htorn
        exact htorn
  | @departed root root' books outcome _ _ hroot heq =>
      have hkin := ((c.withoutStatement id).setting runtime).stopEverywhere_kin id root c.books
      have hhandles :=
        ((c.withoutStatement id).setting runtime).stopEverywhere_handles id root c.books
      rw [heq] at hkin hhandles
      have hc' : ({ c.withoutStatement id with root := some root', books } : Context).Reigns L G
          since := h.kin hroot hkin.1 hhandles.2
      cases outcome with
      | ok => exact hc'
      | error e => exact ⟨fun he => absurd he (hkin.2 e rfl), hc'⟩
  | idle => exact hwithout

theorem perform_reigns {op : Operation} (plain : Prop) (hop : op.Regular)
    (hN : Regime (op.occasion plain) since L E N) (hP : op.Habit since L P Q)
    (hplain : plain → c.recovery.getD [] = [])
    (hG : ∀ below x xs, G below x xs → Steady N P below x xs)
    (hconfined : ∀ level ranges, op = .restrict level ranges → level ≠ 0 →
      ∀ root ∈ c.root, ∀ below (x : Controller) xs,
        x.id ∈ (root.controllersAt c.declaration.inner (level - 1)).map Controller.id →
          N below x xs → N below { x with scheme := x.scheme.confined ranges } xs)
    (hforget : ∀ h termination, op = .terminate h termination → ∀ below x xs, G below x xs →
      h ∈ xs.map Prod.snd → (xs.map Prod.snd).Nodup →
        Steady N P below (x.forget h) (xs.filter fun e => e.2 ≠ h))
    (h : c.Reigns L G since) :
    Ends (fun _ => Reigns L (Steady N P) since)
      (fun e c' => (E e ∨ ∃ id, op = .detach id ∧ e = .statementUnknown id ∧
        c.isAttached id = false) ∧ c'.Reigns L (Steady N Q) since) (perform runtime op c) := by
  have hsteady : c.Reigns L (Steady N P) since := h.mono hG
  have hlasting {c' : Context} (h : c'.Reigns L (Steady N P) since) :
      c'.Reigns L (Steady N Q) since := h.mono fun _ _ _ h => ⟨h.1, hP.lasting _ h.2⟩
  cases op with
  | attach s =>
      exact (attach_reigns hN hP.wakes hsteady hplain).imp (fun _ _ h => h)
        fun _ _ h => ⟨.inl h.1, hlasting h.2⟩
  | detach id =>
      refine (detach_reigns hsteady).imp (fun _ _ h => h) fun e _ h => ⟨?_, hlasting h.2⟩
      by_cases he : e.Internal
      · exact .inr ⟨id, rfl, h.1 he⟩
      · exact .inl (hN.tells he)
  | process e =>
      exact (process_reigns hN hP.wakes hP.lasting rfl (hP.route · e rfl) c hsteady).imp
        (fun _ _ h => h) fun _ _ h => ⟨.inl h.1, h.2⟩
  | advance now =>
      exact (advance_reigns hN hP.wakes hP.lasting (hP.tick · now rfl) c hsteady).imp
        (fun _ _ h => h) fun _ _ h => ⟨.inl h.1, h.2⟩
  | restrict level ranges =>
      exact (restrict_reigns hN hP.wakes hP.lasting
        (fun hlevel root hroot below x xs hx hNx _ =>
          hconfined _ _ rfl hlevel root hroot below x xs hx hNx)
        (hP.restrict · level ranges rfl) hsteady).imp (fun _ _ h => h) fun _ _ h => ⟨.inl h.1, h.2⟩
  | terminate h termination =>
      exact (terminate_reigns hG (hforget h termination rfl) c ‹_›).imp (fun _ _ h => h)
        fun _ _ h => ⟨.inl (hN.tells h.1), hlasting h.2⟩
  | instantiate originator r => exact hop.elim

end Context

end EventContexts
