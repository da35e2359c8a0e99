import EventContexts.Proofs.Sound

namespace EventContexts

open Act

namespace Setting

variable {env : Setting} {below : List Level} {limit : Option Nat} {since : Nat}
  {rest : List Number} {post : Post} {strict : Prop} {root : Node (Children below)} {b : Books}
  {ss : List Statement} {s : Statement} {id : StatementId}

theorem startAgent_spec {path : Path} {p : UInt32} {recovering : Bool} :
    Ends (fun a _ => a.request = env.startRequest path p recovering s ∧ a.view = {})
      (fun _ _ => True) (env.startAgent path p recovering s b) := by
  rw [startAgent]
  split
  · exact ⟨rfl, rfl⟩
  · trivial

theorem startEverywhere_ends (env : Setting)
    (h : Stands limit since strict post rest
      (Child.Sound (Leaf.Staffed env.descriptor ss) strict below [] post) (root, b)) :
    Ends (fun root' b' => Stands limit since strict post rest
        (Child.Sound (Leaf.Staffed env.descriptor (ss ++ [s])) strict below [] post) (root', b'))
      (fun _ b' => Stands limit since strict post rest
        (Child.Sound (Leaf.Staffed env.descriptor ss) strict below [] post) (root, b'))
      (env.startEverywhere s below root b) := by
  let W (w : List Agent × Books) : Prop := w.2.Accounts limit since (root.children.numbers ++ rest)
  have hvisit : ∀ ℓ w, ℓ.Staffed env.descriptor ss → W w → Ends
      (fun r w => (∃ agents, r = { ℓ.running with agents } ∧
        (ℓ.withAgents agents).Staffed env.descriptor (ss ++ [s])) ∧ W w)
      (fun _ => W) (env.startIn s ℓ w) := by
    rintro ℓ ⟨started, b⟩ hℓ hw
    have hkeeps : Keeps (Books.Accounts limit since (root.children.numbers ++ rest))
        (env.startAgent ℓ.path ℓ.partition false s) := Books.keeps_startAgent
    have hstart := (hkeeps b hw).and startAgent_spec
    rw [startIn]
    split
    · next agent b' heq =>
        obtain ⟨hb', hrequest, hview⟩ := hstart.congr heq
        exact ⟨⟨_, rfl, hℓ.append hrequest hview⟩, hb'⟩
    · next e b' heq => exact (hstart.congr heq).1
  have hdone := Node.traverseLeaves_ends hvisit h.manned (w := ([], b)) h.accounts
  simp only [startEverywhere]
  split
  · next root' started b' heq =>
      obtain ⟨hroot, hb'⟩ := hdone.congr heq
      refine ⟨hroot.sound, ?_⟩
      rw [hroot.numbers]
      exact hb'
  · next e started b' heq =>
      have hb' : W (started, b') := hdone.congr heq
      exact ⟨h.manned, (Books.keeps_stopAgents b' hb').state⟩

theorem stopEverywhere_stands (env : Setting) (id : StatementId)
    (h : Stands limit since strict post rest
      (Child.Sound (Leaf.Staffed env.descriptor ss) strict below [] post) (root, b)) :
    Stands limit since strict post rest
      (Child.Sound (Leaf.Staffed env.descriptor (ss.filter fun s => s.id ≠ id)) strict below []
        post) (env.stopEverywhere id below root b).2 := by
  let W (w : Except Error Unit × Books) : Prop :=
    w.2.Accounts limit since (root.children.numbers ++ rest)
  have hvisit : ∀ ℓ w, ℓ.Staffed env.descriptor ss → W w → Ends
      (fun r w => (∃ agents, r = { ℓ.running with agents } ∧
        (ℓ.withAgents agents).Staffed env.descriptor (ss.filter fun s => s.id ≠ id)) ∧ W w)
      (fun _ => W) (env.stopIn id ℓ w) := by
    rintro ℓ ⟨outcome, b⟩ hℓ hw
    have hkeeps : Keeps (Books.Accounts limit since (root.children.numbers ++ rest))
        (env.stopAgents none true (ℓ.running.agents.filter fun a => a.runs id)) :=
      Books.keeps_stopAgents
    exact ⟨⟨_, rfl, hℓ.without id⟩, (hkeeps b hw).state⟩
  have hdone := Node.traverseLeaves_ends hvisit h.manned (w := (.ok (), b)) h.accounts
  simp only [stopEverywhere]
  split
  · next root' outcome b' heq =>
      obtain ⟨hroot, hb'⟩ := hdone.congr heq
      refine ⟨hroot.sound, ?_⟩
      rw [hroot.numbers]
      exact hb'
  · next e _ _ => exact e.elim

end Setting

namespace Context

variable {c : Context} {strict : Prop} {runtime : Runtime} {s : Statement} {id : StatementId}

theorem awaken_ends (strict : Prop) (h : c.books.Accounts c.options.limit 0 []) :
    Ends (fun _ c' => ∃ root books,
        c' = { c with root := some root, recovery := none, books } ∧
          c.Upholds 0 strict (Leaf.Staffed c.descriptor c.statements) (root, books))
      (fun _ c' => ∃ root books, c' = { c with root := some root, books } ∧
        c.Upholds 0 strict (Leaf.Staffed c.descriptor c.statements) (root, books))
      (awaken runtime c) := by
  let wake := (c.setting runtime).drive c.declaration.inner [] fun life =>
    Controller.activate life c.activation
  have hwake : Keeps (c.Upholds 0 strict (Leaf.Staffed c.descriptor c.statements)) wake := by
    refine keeps_upholds fun id => ?_
    refine Setting.keeps_drive (c.setting runtime) Setting.staffed_policy ?_ fun life hlife => ?_
    · exact fun l hl => c.flaw?_levels id l (List.mem_cons_of_mem _ hl)
    · exact Controller.keeps_activate hlife (c.flaw?_levels id _ (List.mem_cons_self ..))
        fun _ _ => trivial
  have hready : c.Upholds 0 strict (Leaf.Staffed c.descriptor c.statements) c.bare :=
    ⟨⟨c.books.nextController⟩, Setting.stands_fresh h.openController⟩
  exact ends_awaken (hwake _ hready)

theorem keeps_closed {root : Node (Children c.declaration.inner)} {books : Books}
    {Q : Leaf → Prop} {statementLevel : Bool} (h : c.Upholds 0 strict Q (root, books)) :
    ((c.setting runtime).closeAll none statementLevel _ root books).2.Accounts
      c.options.limit 0 [] := by
  obtain ⟨id, hs⟩ := h
  have hclose : Triple
      (Books.Accounts c.options.limit 0 (root.children.numbers ++ [.controller id]))
      ((c.setting runtime).closeAll none statementLevel _ root)
      (fun _ => Books.Accounts c.options.limit 0 [.controller id])
      (fun _ => Books.Accounts c.options.limit 0 [.controller id]) := Setting.closeAll_triple
  exact (hclose books hs.accounts).state.dropController

theorem sound_teardown {statementLevel : Bool} (hnone : c.statements = [])
    (hidle : c.root = none → c.books.Accounts c.options.limit 0 [])
    (htree : ∀ root ∈ c.root, ∃ Q, c.Upholds 0 strict Q (root, c.books)) :
    (teardown runtime statementLevel c).2.Sound strict := by
  have hclear (books : Books) (h : books.Accounts c.options.limit 0 []) :
      ({ c with root := none
                books := { books with ids := books.ids.clear }.updateGauge } : Context).Sound
        strict := by
    refine ⟨by simp [hnone], by simp [hnone], fun _ => h.clear.updateGauge, ?_⟩
    intro root hroot
    cases hroot
  simp only [teardown]
  split
  · next root hroot =>
      obtain ⟨Q, hQ⟩ := htree root hroot
      exact hclear _ (keeps_closed hQ)
  · next hroot => exact hclear _ (hidle hroot)

theorem sound_active {root : Node (Children c.declaration.inner)} {books : Books}
    {recovery : Option (List Assignment)} (hids : (c.statements.map Statement.id).Nodup)
    (hsome : c.statements ≠ [])
    (htree : c.Upholds 0 strict (Leaf.Staffed c.descriptor c.statements) (root, books)) :
    ({ c with root := some root, books, recovery } : Context).Sound strict := by
  refine ⟨hids, by simp [hsome], by simp, ?_⟩
  rintro _ ⟨⟩
  exact htree

theorem nodup_attached (h : c.Sound strict) (hnew : ¬ c.isAttached s.id = true) :
    ((c.statements ++ [s]).map Statement.id).Nodup := by
  rw [List.map_append, List.nodup_append]
  refine ⟨h.ids, List.nodup_singleton _, ?_⟩
  intro id hid id' hid' heq
  obtain ⟨s', hs', rfl⟩ := List.mem_map.1 hid
  obtain rfl := List.mem_singleton.1 hid'
  exact hnew (List.any_eq_true.2 ⟨s', hs', beq_iff_eq.2 heq⟩)

theorem Sound.statements_nil (h : c.Sound strict) (hroot : c.root = none) : c.statements = [] := by
  by_contra hne
  have hsome := h.active.2 hne
  rw [hroot] at hsome
  cases hsome

def withStatement (c : Context) (s : Statement) : Context :=
  { c with statements := c.statements ++ [s] }

inductive Attaches (runtime : Runtime) (s : Statement) (c : Context) :
    Except Error Unit × Context → Prop where
  | taken (htaken : c.isAttached s.id = true) :
      Attaches runtime s c (.error (.statementAttached s.id), c)
  | unfit {e : Error} (hnew : ¬ c.isAttached s.id = true)
      (hunfit : Declaration.checkAll (fun l => Level.validate l s) c.declaration.levels =
        .error e) :
      Attaches runtime s c (.error e, c)
  | joined {root root' : Node (Children c.declaration.inner)} {books : Books}
      (hnew : ¬ c.isAttached s.id = true) (hroot : c.root = some root)
      (hstart : ((c.withStatement s).setting runtime).startEverywhere s _ root c.books =
        (.ok root', books)) :
      Attaches runtime s c (.ok (), { c.withStatement s with root := some root', books })
  | unjoined {root : Node (Children c.declaration.inner)} {e : Error} {books : Books}
      (hnew : ¬ c.isAttached s.id = true) (hroot : c.root = some root)
      (hstart : ((c.withStatement s).setting runtime).startEverywhere s _ root c.books =
        (.error e, books)) :
      Attaches runtime s c (.error e, { c with books })
  | awoken {c' : Context} (hnew : ¬ c.isAttached s.id = true) (hroot : c.root = none)
      (hawaken : awaken runtime (c.withStatement s) = (.ok (), c')) :
      Attaches runtime s c (.ok (), c')
  | unawoken {e : Error} {c' : Context} (hnew : ¬ c.isAttached s.id = true) (hroot : c.root = none)
      (hawaken : awaken runtime (c.withStatement s) = (.error e, c')) :
      Attaches runtime s c (.error e, (teardown runtime false (c'.withoutStatement s.id)).2)

theorem attaches (runtime : Runtime) (s : Statement) (c : Context) :
    Attaches runtime s c (attach runtime s c) := by
  rw [attach]
  split
  · next htaken => exact .taken htaken
  · next hnew =>
      split
      · next e hunfit => exact .unfit hnew hunfit
      · split
        · next root hroot =>
            simp only
            split
            · next root' books hstart => exact .joined hnew hroot hstart
            · next e books hstart => exact .unjoined hnew hroot hstart
        · next hroot =>
            simp only
            split
            · next c' hawaken => exact .awoken hnew hroot hawaken
            · next e c' hawaken => exact .unawoken hnew hroot hawaken

inductive Detaches (runtime : Runtime) (id : StatementId) (c : Context) :
    Except Error Unit × Context → Prop where
  | unknown (hunknown : c.isAttached id = false) :
      Detaches runtime id c (.error (.statementUnknown id), c)
  | last (hattached : c.isAttached id = true) (hlast : c.statements.length = 1) :
      Detaches runtime id c (teardown runtime true (c.withoutStatement id))
  | departed {root root' : Node (Children c.declaration.inner)} {books : Books}
      {outcome : Except Error Unit} (hattached : c.isAttached id = true)
      (hmore : c.statements.length ≠ 1) (hroot : c.root = some root)
      (hstop : ((c.withoutStatement id).setting runtime).stopEverywhere id _ root c.books =
        (outcome, root', books)) :
      Detaches runtime id c (outcome, { c.withoutStatement id with root := some root', books })
  | idle (hattached : c.isAttached id = true) (hmore : c.statements.length ≠ 1)
      (hroot : c.root = none) :
      Detaches runtime id c (.ok (), c.withoutStatement id)

theorem detaches (runtime : Runtime) (id : StatementId) (c : Context) :
    Detaches runtime id c (detach runtime id c) := by
  rw [detach]
  split
  · next hunknown => exact .unknown (by simpa using hunknown)
  · next hattached =>
      have hattached : c.isAttached id = true := by simpa using hattached
      split
      · next hlast => exact .last hattached hlast
      · next hmore =>
          split
          · next root hroot => exact .departed hattached hmore hroot rfl
          · next hroot => exact .idle hattached hmore hroot

theorem keeps_attach : Keeps (Sound strict) (attach runtime s) := by
  intro c h
  have hcase := attaches runtime s c
  generalize attach runtime s c = o at hcase ⊢
  cases hcase with
  | taken | unfit => exact h
  | joined hnew hroot heq =>
      obtain ⟨id, hs⟩ := h.tree _ hroot
      have hstart := Setting.startEverywhere_ends (s := s) ((c.withStatement s).setting runtime) hs
      exact sound_active (nodup_attached h hnew) (by simp [withStatement]) ⟨id, hstart.congr heq⟩
  | @unjoined root e books hnew hroot heq =>
      obtain ⟨id, hs⟩ := h.tree root hroot
      have hstart := Setting.startEverywhere_ends (s := s) ((c.withStatement s).setting runtime) hs
      -- the tree is left as it was, and only the books have moved on
      refine ⟨h.ids, h.active, fun hnone => ?_, fun root' hroot' => ?_⟩
      · rw [hroot] at hnone
        cases hnone
      · obtain rfl := Option.some.inj (hroot.symm.trans hroot')
        exact ⟨id, hstart.congr heq⟩
  | awoken hnew hroot heq =>
      have hawaken : Ends _ _ (awaken runtime (c.withStatement s)) :=
        awaken_ends strict (h.idle hroot)
      obtain ⟨root, books, rfl, htree⟩ := hawaken.congr heq
      exact sound_active (nodup_attached h hnew) (by simp [withStatement]) htree
  | unawoken hnew hroot heq =>
      have hawaken : Ends _ _ (awaken runtime (c.withStatement s)) :=
        awaken_ends strict (h.idle hroot)
      obtain ⟨root, books, rfl, htree⟩ := hawaken.congr heq
      refine sound_teardown ?_ (by simp [withoutStatement]) ?_
      · simp [withoutStatement, withStatement, h.statements_nil hroot]
      · rintro _ ⟨⟩
        exact ⟨_, htree⟩

theorem Sound.statements_without (h : c.Sound strict) (hattached : c.isAttached id = true)
    (hlength : c.statements.length ≠ 1) : (c.withoutStatement id).statements ≠ [] := by
  intro hnil
  have hall : ∀ x ∈ c.statements.map Statement.id, x = id := by
    intro x hx
    obtain ⟨s, hs, rfl⟩ := List.mem_map.1 hx
    simpa using List.filter_eq_nil_iff.1 hnil s hs
  have hreplicate := List.eq_replicate_iff.2 ⟨List.length_map _, hall⟩
  have hle : c.statements.length ≤ 1 := List.nodup_replicate.1 (hreplicate ▸ h.ids)
  obtain ⟨s, hs, -⟩ := List.any_eq_true.1 hattached
  have hpos := List.length_pos_of_mem hs
  omega

theorem keeps_detach : Keeps (Sound strict) (detach runtime id) := by
  intro c h
  have hcase := detaches runtime id c
  generalize detach runtime id c = o at hcase ⊢
  cases hcase with
  | unknown => exact h
  | last hattached hlast =>
      refine ends_of_state (sound_teardown ?_ h.idle fun root hroot => ⟨_, h.tree root hroot⟩)
      obtain ⟨s, hs⟩ := List.length_eq_one_iff.1 hlast
      have hid : s.id = id := by simpa [isAttached, hs] using hattached
      simp [withoutStatement, hs, hid]
  | departed hattached hmore hroot heq =>
      have hids : ((c.withoutStatement id).statements.map Statement.id).Nodup :=
        h.ids.sublist (List.filter_sublist.map Statement.id)
      obtain ⟨rootId, hs⟩ := h.tree _ hroot
      have hstop := Setting.stopEverywhere_stands ((c.withoutStatement id).setting runtime) id hs
      rw [heq] at hstop
      exact ends_of_state
        (sound_active hids (h.statements_without hattached hmore) ⟨rootId, hstop⟩)
  | idle hattached _ hroot => simp [isAttached, h.statements_nil hroot] at hattached

end Context

end EventContexts
