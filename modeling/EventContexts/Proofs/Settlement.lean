import EventContexts.Proofs.Ledger
import EventContexts.Proofs.Upkeep

namespace EventContexts

open Act

def Children.staff : {below : List Level} → Children below → Staff
  | [], partitions =>
      let partitions : Table Running := partitions
      partitions.entries.flatMap fun (p, r) => [(p, r.agents)]
  | _ :: below, branches =>
      let branches : Table (Branch (Children below)) := branches
      branches.entries.flatMap fun (_, b) => staff b.node.children

def Child.staff : {below : List Level} → UInt32 × Child below → Staff
  | [], (p, r) => [(p, Running.agents r)]
  | _ :: _, (_, b) => (Branch.node b).children.staff

variable {below : List Level} {ω ε α β : Type} {W : Staff → ω → Prop} {E : ε → ω → Prop}
  {others : Staff}

namespace Children

variable {children children' : Children below} {k : UInt32} {a : Child below}

theorem staff_eq (children : Children below) :
    children.staff = children.table.entries.flatMap Child.staff := by
  cases below <;> rfl

@[simp] theorem staff_empty : (Children.empty below).staff = [] := by
  cases below <;> rfl

theorem staff_of_mem (others : Children below) (h : others.table = children.table.erase k)
    (hmem : (k, a) ∈ children.table.entries) :
    children.staff.Perm (Child.staff (k, a) ++ others.staff) := by
  rw [staff_eq, staff_eq, h]
  exact (Table.perm_of_get? (Table.get?_eq_some.2 hmem)).flatMap_right _

theorem staff_of_put (others : Children below) (h : children'.table = children.table.insert k a)
    (hothers : others.table = children.table.erase k) :
    children'.staff.Perm (Child.staff (k, a) ++ others.staff) := by
  rw [staff_eq, staff_eq, h, hothers]
  exact (children.table.insert_perm k a).flatMap_right _

theorem staff_of_new (h : children'.table = children.table.insert k a)
    (hk : k ∉ children.table.keys) :
    children'.staff.Perm (Child.staff (k, a) ++ children.staff) := by
  rw [staff_eq, staff_eq, h]
  exact (Table.insert_perm_of_new hk).flatMap_right _

end Children

theorem Node.staff_leaves (node : Node (Children below)) (path : Path) :
    node.children.staff =
      (node.leaves below path).map fun ℓ => (ℓ.partition, ℓ.running.agents) := by
  induction below generalizing path with
  | nil =>
      rw [Children.staff, Node.leaves, List.map_map, List.map_eq_flatMap]
      rfl
  | cons l below ih =>
      rw [Children.staff, Node.leaves, List.map_flatMap]
      exact List.flatMap_congr fun e _ => ih e.2.node _

section visits

variable (hperm : ∀ xs ys w, xs.Perm ys → W xs w → W ys w)

include hperm

theorem Table.traverseIn_staff {f : UInt32 → α → ω → Except ε β × ω} {es : List (UInt32 × α)}
    {g : UInt32 × α → Staff} {g' : UInt32 × β → Staff}
    (hf : ∀ e ∈ es, ∀ others w, W (g e ++ others) w →
      Ends (fun b w => W (g' (e.1, b) ++ others) w) E (f e.1 e.2 w))
    {w : ω} (hw : W (es.flatMap g ++ others) w) :
    Ends (fun out w => W (out.1.flatMap g' ++ others) w) E (traverseIn f es w) := by
  induction es generalizing others w with
  | nil => exact hw
  | cons e es ih =>
      obtain ⟨hhead, htail⟩ := List.forall_mem_cons.1 hf
      rw [List.flatMap_cons, List.append_assoc] at hw
      have hfirst := hhead _ w hw
      rcases hx : f e.1 e.2 w with ⟨why | b, w'⟩
      · rw [hx] at hfirst
        simp only [traverseIn, hx]
        exact hfirst
      · rw [hx] at hfirst
        -- the visited entry joins the others, and the walk goes on with the rest
        have hmoved : W (es.flatMap g ++ (g' (e.1, b) ++ others)) w' := by
          refine hperm _ _ _ ?_ hfirst
          rw [← List.append_assoc, ← List.append_assoc]
          exact List.perm_append_comm.append_right others
        have hrest := ih htail hmoved
        rcases hy : traverseIn f es w' with ⟨why | out, w''⟩
        · rw [hy] at hrest
          simp only [traverseIn, hx, hy]
          exact hrest
        · rw [hy] at hrest
          simp only [traverseIn, hx, hy, ends_ok, List.flatMap_cons]
          refine hperm _ _ _ ?_ hrest
          rw [← List.append_assoc]
          exact List.perm_append_comm.append_right others

theorem Table.traverse_staff {f : UInt32 → α → ω → Except ε β × ω} {t : Table α}
    {g : UInt32 × α → Staff} {g' : UInt32 × β → Staff}
    (hf : ∀ e ∈ t.entries, ∀ others w, W (g e ++ others) w →
      Ends (fun b w => W (g' (e.1, b) ++ others) w) E (f e.1 e.2 w))
    {w : ω} (hw : W (t.entries.flatMap g ++ others) w) :
    Ends (fun t' w => W (t'.entries.flatMap g' ++ others) w) E (t.traverse f w) := by
  have hin := traverseIn_staff hperm hf hw
  rcases hx : traverseIn f t.entries w with ⟨why | out, w'⟩
  · rw [hx] at hin
    simp only [traverse, hx]
    exact hin
  · rw [hx] at hin
    simp only [traverse, hx]
    exact hin

theorem Node.traverseLeaves_staff {f : Leaf → ω → Except ε Running × ω} {path : Path}
    {node : Node (Children below)}
    (hf : ∀ ℓ ∈ node.leaves below path, ∀ others w,
      W ((ℓ.partition, ℓ.running.agents) :: others) w →
        Ends (fun r w => W ((ℓ.partition, r.agents) :: others) w) E (f ℓ w))
    {w : ω} (hw : W (node.children.staff ++ others) w) :
    Ends (fun n w => W (n.children.staff ++ others) w) E
      (node.traverseLeaves f below path w) := by
  induction below generalizing path others w with
  | nil =>
      let visit (p : UInt32) (r : Running) : ω → Except ε Running × ω :=
        f ⟨path ++ [node.step r.key r.properties], node.controller.id, p, r⟩
      have hvisit : ∀ e ∈ node.children.table.entries, ∀ others w,
          W (Child.staff e ++ others) w → Ends (fun (r : Child []) w =>
            W (Child.staff (e.1, r) ++ others) w) E (visit e.1 e.2 w) :=
        fun e he => hf _ (List.mem_map_of_mem he)
      have hdone := Table.traverse_staff hperm hvisit (node.children.staff_eq ▸ hw)
      simp only [Node.traverseLeaves]
      split
      · next t' w' heq => exact hdone.congr heq
      · next why w' heq => exact hdone.congr heq
  | cons l below ih =>
      let visit (_ : UInt32) (b : Branch (Children below)) :
          ω → Except ε (Branch (Children below)) × ω :=
        b.visit (Node.traverseLeaves f below (path ++ [node.step b.key b.properties]))
      have hvisit : ∀ e ∈ node.children.table.entries, ∀ others w,
          W (Child.staff e ++ others) w → Ends (fun (b : Child (l :: below)) w =>
            W (Child.staff (e.1, b) ++ others) w) E (visit e.1 e.2 w) := by
        intro e he others w hw
        refine Branch.visit_ends (ih (fun ℓ hℓ => hf ℓ ?_) hw)
        exact List.mem_flatMap.2 ⟨e, he, hℓ⟩
      have hdone := Table.traverse_staff hperm hvisit (node.children.staff_eq ▸ hw)
      simp only [Node.traverseLeaves]
      split
      · next t' w' heq => exact hdone.congr heq
      · next why w' heq => exact hdone.congr heq

end visits

namespace Setting

variable {env : Setting} {b : Books} {x : Staff}

def Balanced (x : Staff) (below : List Level) (_ : Post) (s : Children below × Books) : Prop :=
  s.2.Ledger (s.1.staff ++ x) []

theorem closeAll_ledger {termination : Option Props} {statementLevel : Bool}
    {node : Node (Children below)} (h : b.Ledger (node.children.staff ++ x) []) :
    (env.closeAll termination statementLevel below node b).2.Ledger x [] := by
  rw [node.staff_leaves []] at h
  exact h.closePartitions.congr rfl rfl

theorem startPartition_balanced {path : Path} {owner : Controller} {post : Post} {r : Request}
    (hids : (env.statements.map Statement.id).Nodup) :
    Keeps (Balanced x [] post) (env.startPartition owner path r) := by
  rintro ⟨partitions, b⟩ hb
  let partitions : Table Running := partitions
  let children : Children [] := partitions
  let staff := children.staff
  have hinsert {p : UInt32} {running : Running} {b : Books}
      (h : b.Ledger ((p, running.agents) :: (staff ++ x)) []) :
      Balanced x [] post (partitions.insert p running, b) := by
    let a : Child [] := running
    let children' : Children [] := partitions.insert p running
    have hnew : p ∉ children.table.keys := fun hmem => by
      obtain ⟨e, he, rfl⟩ := List.mem_map.1 hmem
      refine h.not_mem (List.mem_map.2 ⟨(e.1, Running.agents e.2), ?_, rfl⟩)
      refine List.mem_append_left _ (List.mem_flatMap.2 ⟨e, he, ?_⟩)
      exact List.mem_singleton_self _
    have hstaff : children'.staff.Perm (Child.staff (p, a) ++ children.staff) :=
      Children.staff_of_new rfl hnew
    exact h.perm (hstaff.symm.append_right x)
  simp only [startPartition]
  split
  · exact hb
  · have hclaim : Ends (fun p b' => b'.Ledger ((p, []) :: (staff ++ x)) [])
        (fun _ b' => b'.Ledger (staff ++ x) []) (env.claim r.assigned b) :=
      Books.Ledger.claim hb r.assigned
    split
    · next e b₁ heq => exact hclaim.congr heq
    · next p b₁ heq =>
        have hb₁ : b₁.Ledger ((p, []) :: (staff ++ x)) [] := hclaim.congr heq
        have hstart : Ends (fun agents b₂ => b₂.Ledger ((p, agents) :: (staff ++ x)) [])
            (fun _ b₂ => b₂.Ledger ((p, []) :: (staff ++ x)) [])
            (env.startAgents (path ++ [⟨owner.level, r.key, capture r⟩]) p r.recovered.isSome
              env.statements [] b₁) := hb₁.startAgents hids (by simp)
        split
        · next e b₂ heq => exact Books.Ledger.release (hstart.congr heq)
        · next agents b₂ heq =>
            have hb₂ : b₂.Ledger ((p, agents) :: (staff ++ x)) [] := hstart.congr heq
            cases htrigger : r.trigger with
            | none => exact hinsert (hb₂.congr rfl rfl)
            | some e =>
                have hoffered := (hb₂.offerAll (e := e) agents).evaluate (e := e)
                rw [← fst_offerAll (b := b₂)] at hoffered
                exact hinsert (hoffered.congr rfl rfl)

theorem endChild_balanced {post : Post} {id : ControllerId} {h : Handle}
    {termination : Option Props} :
    Keeps (Balanced x below post) (env.endChild termination below id h) := by
  rintro ⟨children, b⟩ hb
  by_cases hlive : ∃ e ∈ children.table.entries, h = e.2.handle id e.1
  · obtain ⟨⟨k, a⟩, hmem, rfl⟩ := hlive
    let others := children.erase k
    have hopen : b.Ledger (Child.staff (k, a) ++ (others.staff ++ x)) [] := by
      rw [← List.append_assoc]
      exact Books.Ledger.perm hb
        ((Children.staff_of_mem others children.table_erase hmem).append_right x)
    have hclosed : (env.closeChild termination (k, a) b).2.Ledger (others.staff ++ x) [] := by
      cases below with
      | nil => exact Books.Ledger.congr hopen.closePartition rfl rfl
      | cons m below => exact closeAll_ledger hopen
    rw [endChild_live hmem]
    exact ends_of_state hclosed
  · rw [endChild_stale hlive]
    exact hb

theorem balanced_upkeep (hids : (env.statements.map Statement.id).Nodup) :
    env.Upkeep (fun _ _ => True) Balanced where
  suits _ := trivial
  number hb := Books.Ledger.congr hb rfl rfl
  partition _ := startPartition_balanced hids
  sprout {x _ m below r branches b} _ hb hnew := by
    let children : Children (m :: below) := branches
    refine ⟨children.staff ++ x, ?_, fun node b' _ hb' => ⟨?_, closeAll_ledger hb'⟩⟩
    · rw [Balanced, Children.staff_empty]
      exact Books.Ledger.congr hb rfl rfl
    · let branch : Branch (Children below) := ⟨r.key, r.properties, node⟩
      let a : Child (m :: below) := branch
      let children' : Children (m :: below) := branches.insert r.path branch
      have hstaff : children'.staff.Perm (Child.staff (r.path, a) ++ children.staff) :=
        Children.staff_of_new rfl hnew
      refine Books.Ledger.perm hb' ?_
      rw [← List.append_assoc]
      exact hstaff.symm.append_right x
  stop := endChild_balanced
  descend {x _ m below k branch branches b} hb hmem := by
    let children : Children (m :: below) := branches
    let others : Children (m :: below) := branches.erase k
    have hothers : others.table = children.table.erase k := rfl
    refine ⟨others.staff ++ x, ?_, fun node b' _ hb' => ?_⟩
    · refine Books.Ledger.perm hb ?_
      rw [← List.append_assoc]
      exact (Children.staff_of_mem others hothers hmem).append_right x
    · let branch' : Branch (Children below) := { branch with node }
      let a : Child (m :: below) := branch'
      let children' : Children (m :: below) := branches.insert k branch'
      have hstaff : children'.staff.Perm (Child.staff (k, a) ++ others.staff) :=
        Children.staff_of_put others rfl hothers
      refine Books.Ledger.perm hb' ?_
      rw [← List.append_assoc]
      exact hstaff.symm.append_right x
  offer {x _ p r partitions b e} hb hmem := by
    let children : Children [] := partitions
    let others : Children [] := partitions.erase p
    have hothers : others.table = children.table.erase p := rfl
    have hopen : b.Ledger ((p, r.agents) :: (others.staff ++ x)) [] :=
      Books.Ledger.perm hb ((Children.staff_of_mem others hothers hmem).append_right x)
    let running : Running := { r with agents := r.agents.map fun a => a.evaluate e }
    let a : Child [] := running
    let children' : Children [] := partitions.insert p running
    have hstaff : children'.staff.Perm (Child.staff (p, a) ++ others.staff) :=
      Children.staff_of_put others rfl hothers
    exact ((hopen.offerAll (e := e) r.agents).evaluate (e := e)).perm
      (hstaff.symm.append_right x)

theorem startEverywhere_ledger {s : Statement} {root : Node (Children below)}
    (hb : b.Ledger root.children.staff [])
    (hnew : ∀ ℓ ∈ root.leaves below [], ∀ a ∈ ℓ.running.agents, a.statement ≠ s) :
    Ends (fun root' b' => b'.Ledger root'.children.staff [])
      (fun _ b' => b'.Ledger root.children.staff []) (env.startEverywhere s below root b) := by
  -- what was started on the way lives in the tree to come, and is loose beside the old one
  let W (xs : Staff) (w : List Agent × Books) : Prop :=
    w.2.Ledger xs [] ∧ w.2.Ledger root.children.staff w.1
  have hvisit : ∀ ℓ ∈ root.leaves below [], ∀ others w,
      W ((ℓ.partition, ℓ.running.agents) :: others) w →
        Ends (fun r w => W ((ℓ.partition, r.agents) :: others) w)
          (fun _ w => w.2.Ledger root.children.staff w.1) (env.startIn s ℓ w) := by
    rintro ℓ hℓ others ⟨started, b⟩ ⟨hafter, hbefore⟩
    have hidle := hafter.idle_of_not_mem (r := env.startRequest ℓ.path ℓ.partition false s) <| by
      rw [List.append_nil]
      intro a ha heq
      have hpartition : a.partition = ℓ.partition := congrArg StartRequest.partition heq
      obtain ⟨e, he, hae⟩ := List.mem_flatMap.1 ha
      rcases List.mem_cons.1 he with rfl | he
      · exact hnew ℓ hℓ a hae (congrArg StartRequest.statement heq)
      · refine hafter.not_mem ?_
        rw [← hpartition, hafter.housed e (List.mem_cons_of_mem _ he) a hae]
        exact List.mem_map_of_mem he
    have hstart := (hafter.startAgent hidle).and (hbefore.startAgent hidle)
    rw [startIn]
    split
    · next a b' heq =>
        obtain ⟨⟨hrequest, hafter'⟩, -, hbefore'⟩ := hstart.congr heq
        refine ⟨hafter'.regroup (List.Perm.refl _) ?_ ?_, hbefore'⟩
        · refine List.forall_mem_cons.2 ⟨fun a' ha' => ?_, fun e he => ?_⟩
          · rcases List.mem_append.1 ha' with ha' | ha'
            · exact hafter.housed _ (List.mem_cons_self ..) a' ha'
            · rw [List.mem_singleton.1 ha', Agent.partition, hrequest]
              rfl
          · exact hafter.housed e (List.mem_cons_of_mem _ he)
        · refine List.Perm.map _ ?_
          simp only [Staff.agents, List.flatMap_cons, List.nil_append, List.append_nil,
            List.append_assoc]
          exact List.perm_append_comm.append_left _
    · next e b' heq => exact (hstart.congr heq).2
  have hready : W (root.children.staff ++ []) ([], b) := by simpa [W] using hb
  have hdone := Node.traverseLeaves_staff (fun _ _ _ hxs hw => ⟨hw.1.perm hxs, hw.2⟩) hvisit hready
  simp only [startEverywhere]
  split
  · next root' started b' heq => simpa [W] using (hdone.congr heq).1
  · next e started b' heq =>
      have hb' : b'.Ledger root.children.staff (started ++ []) := by
        rw [List.append_nil]
        exact hdone.congr heq
      exact hb'.stopAgents

theorem stopEverywhere_ledger {id : StatementId} {root : Node (Children below)}
    (hb : b.Ledger root.children.staff []) :
    (env.stopEverywhere id below root b).2.2.Ledger
      (env.stopEverywhere id below root b).2.1.children.staff [] := by
  let W (xs : Staff) (w : Except Error Unit × Books) : Prop := w.2.Ledger xs []
  have hvisit : ∀ ℓ ∈ root.leaves below [], ∀ others w,
      W ((ℓ.partition, ℓ.running.agents) :: others) w →
        Ends (fun r w => W ((ℓ.partition, r.agents) :: others) w) (fun _ _ => False)
          (env.stopIn id ℓ w) := by
    rintro ℓ - others ⟨outcome, b⟩ hb
    let runs (a : Agent) : Bool := a.runs id
    have hparts : ℓ.running.agents.Perm
        (ℓ.running.agents.filter (fun a => !runs a) ++ (ℓ.running.agents.filter runs ++ [])) := by
      rw [List.append_nil]
      exact (List.filter_append_perm runs _).symm.trans List.perm_append_comm
    exact (Books.Ledger.part hb hparts).stopAgents
  have hready : W (root.children.staff ++ []) (.ok (), b) := by simpa [W] using hb
  have hdone := Node.traverseLeaves_staff (fun _ _ _ hxs hw => hw.perm hxs) hvisit hready
  simp only [stopEverywhere]
  split
  · next root' outcome b' heq => simpa [W] using hdone.congr heq
  · next e _ _ => exact e.elim

end Setting

namespace Context

variable {c : Context} {runtime : Runtime}

abbrev Settled (c : Context) : Prop := c.Tends Setting.Balanced [] c.descriptor c.statements

theorem settled_of_root {root : Node (Children c.declaration.inner)} {books : Books}
    {recovery : Option (List Assignment)}
    (hlevel : root.controller.level = c.declaration.outer)
    (hb : books.Ledger root.children.staff []) :
    ({ c with root := some root, books, recovery } : Context).Settled := by
  refine ⟨rfl, rfl, by simp, ?_⟩
  rintro _ ⟨⟩
  refine ⟨hlevel, ?_⟩
  rw [Setting.Balanced, List.append_nil]
  exact hb

theorem settled_idle {books : Books} (hb : books.Ledger [] []) :
    ({ c with root := none, books } : Context).Settled := by
  refine ⟨rfl, rfl, fun _ _ => ?_, by simp⟩
  rw [Setting.Balanced, Children.staff_empty]
  exact hb

theorem Settled.ledger (h : c.Settled) {root : Node (Children c.declaration.inner)}
    (hroot : c.root = some root) : c.books.Ledger root.children.staff [] := by
  have hheld := (h.tree root hroot).2
  rwa [Setting.Balanced, List.append_nil] at hheld

theorem Settled.ledger_idle (h : c.Settled) (hroot : c.root = none) : c.books.Ledger [] [] := by
  have hidle := h.idle hroot ⟨0⟩
  rwa [Setting.Balanced, Children.staff_empty] at hidle

theorem Settled.teardown (h : c.Settled) {statementLevel : Bool} :
    (teardown runtime statementLevel c).2.Settled := by
  have hclear {books : Books} (hb : books.Ledger [] []) :
      ({ c with root := none
                books := { books with ids := books.ids.clear }.updateGauge } : Context).Settled :=
    settled_idle (hb.clear.congr rfl rfl)
  simp only [Context.teardown]
  split
  · next root hroot =>
      have hb : c.books.Ledger (root.children.staff ++ []) [] := by
        rw [List.append_nil]
        exact h.ledger hroot
      exact hclear (Setting.closeAll_ledger hb)
  · next hroot => exact hclear (h.ledger_idle hroot)

theorem Settled.withoutStatement (h : c.Settled) (id : StatementId) :
    (c.withoutStatement id).Settled :=
  ⟨rfl, rfl, h.idle, h.tree⟩

theorem Sound.statement_ne {strict : Prop} {s : Statement} (h : c.Sound strict)
    (hnew : ¬ c.isAttached s.id = true) {root : Node (Children c.declaration.inner)}
    (hroot : c.root = some root) :
    ∀ ℓ ∈ root.leaves _ [], ∀ a ∈ ℓ.running.agents, a.statement ≠ s := by
  rintro ℓ hℓ a ha rfl
  have hleaf : ℓ ∈ c.leaves := by
    rw [Context.leaves, hroot]
    exact hℓ
  have hattached : a.statement ∈ c.statements := by
    rw [← (h.leaves ℓ hleaf).statements]
    exact List.mem_map_of_mem ha
  exact hnew (List.any_eq_true.2 ⟨_, hattached, beq_self_eq_true _⟩)

theorem Settled.attach {strict : Prop} (h : c.Settled) (hsound : c.Sound strict) {s : Statement} :
    (attach runtime s c).2.Settled := by
  let env := (c.withStatement s).setting runtime
  have hidle : (c.withStatement s).Settled := ⟨rfl, rfl, h.idle, h.tree⟩
  have hawaken (hnew : ¬ c.isAttached s.id = true) (hroot : c.root = none) :
      Ends _ _ (awaken runtime (c.withStatement s)) :=
    awaken_tends (fun env _ henv => Setting.balanced_upkeep (henv ▸ nodup_attached hsound hnew))
      hidle hroot
  have hcase := attaches runtime s c
  generalize Context.attach runtime s c = o at hcase ⊢
  cases hcase with
  | taken | unfit => exact h
  | @joined root root' books hnew hroot heq =>
      have hstart : Ends _ _ (env.startEverywhere s _ root c.books) :=
        Setting.startEverywhere_ledger (h.ledger hroot) (hsound.statement_ne hnew hroot)
      obtain ⟨id, hstands⟩ := hsound.tree root hroot
      have hstay := Setting.startEverywhere_ends (s := s) env hstands
      obtain ⟨hb, hroot'⟩ := (hstart.and hstay).congr heq
      exact settled_of_root (c := c.withStatement s) (congrArg Post.level hroot'.manned.stands) hb
  | @unjoined root e books hnew hroot heq =>
      have hstart : Ends _ _ (env.startEverywhere s _ root c.books) :=
        Setting.startEverywhere_ledger (h.ledger hroot) (hsound.statement_ne hnew hroot)
      refine ⟨rfl, rfl, fun hnone => ?_, fun root' hroot' => ⟨(h.tree root' hroot').1, ?_⟩⟩
      · rw [hroot] at hnone
        cases hnone
      · obtain rfl := Option.some.inj (hroot.symm.trans hroot')
        rw [Setting.Balanced, List.append_nil]
        exact hstart.congr heq
  | awoken hnew hroot heq =>
      obtain ⟨root, books, rfl, hlevel, hb⟩ := (hawaken hnew hroot).congr heq
      rw [Setting.Balanced, List.append_nil] at hb
      exact settled_of_root hlevel hb
  | unawoken hnew hroot heq =>
      obtain ⟨root, books, rfl, hlevel, hb⟩ := (hawaken hnew hroot).congr heq
      rw [Setting.Balanced, List.append_nil] at hb
      have hgrown : ({ c.withStatement s with root := some root, books } : Context).Settled :=
        settled_of_root hlevel hb
      exact (hgrown.withoutStatement s.id).teardown

theorem Settled.detach {strict : Prop} (h : c.Settled) (hsound : c.Sound strict)
    {id : StatementId} : (detach runtime id c).2.Settled := by
  have hcase := detaches runtime id c
  generalize Context.detach runtime id c = o at hcase ⊢
  cases hcase with
  | unknown => exact h
  | last => exact (h.withoutStatement id).teardown
  | @departed root _ _ _ _ _ hroot heq =>
      let env := (c.withoutStatement id).setting runtime
      obtain ⟨rootId, hstands⟩ := hsound.tree root hroot
      have hstay := Setting.stopEverywhere_stands env id hstands
      have hledger : (env.stopEverywhere id _ root c.books).2.2.Ledger
          (env.stopEverywhere id _ root c.books).2.1.children.staff [] :=
        Setting.stopEverywhere_ledger (h.ledger hroot)
      rw [heq] at hstay hledger
      exact settled_of_root (c := c.withoutStatement id)
        (congrArg Post.level hstay.manned.stands) hledger
  | idle => exact h.withoutStatement id

theorem Settled.perform {strict : Prop} (h : c.Settled) (hsound : c.Sound strict)
    {op : Operation} : (Context.perform runtime op c).2.Settled := by
  have hinner (hop : op.Inner) : (Context.perform runtime op c).2.Settled := by
    have hkeeps : Keeps (Tends Setting.Balanced [] c.descriptor c.statements)
        (Context.perform runtime op) :=
      tends_perform (fun env _ henv => Setting.balanced_upkeep (henv ▸ hsound.ids)) hop
        fun _ _ _ => trivial
    have hdone := (hkeeps c h).state
    exact ⟨rfl, rfl, hdone.idle, hdone.tree⟩
  cases op with
  | attach s => exact h.attach hsound
  | detach id => exact h.detach hsound
  | _ => exact hinner trivial

theorem Reachable.settled {allowed : Operation → Prop} (h : Reachable allowed c) : c.Settled := by
  induction h with
  | new declaration options metrics recovery =>
      exact settled_idle (c := Context.new declaration options metrics recovery)
        ⟨List.Perm.refl _, by simp, Trace.paired_nil, List.Perm.refl _⟩
  | step runtime op hc _ ih =>
      have hsound : Sound False _ := hc.sound False.elim
      exact ih.perform hsound

def agents (c : Context) : List Agent := c.leaves.flatMap fun ℓ => ℓ.running.agents

theorem Settled.balance (h : c.Settled) :
    c.books.trace.Paired ∧
      c.books.trace.started.Perm (c.books.trace.stopped ++ c.agents.map Agent.request) := by
  rw [agents, leaves]
  cases hroot : c.root with
  | none =>
      have hledger := h.ledger_idle hroot
      exact ⟨hledger.paired, hledger.balance⟩
  | some root =>
      have hledger := h.ledger hroot
      refine ⟨hledger.paired, ?_⟩
      have hbalance := hledger.balance
      rw [root.staff_leaves [], Staff.agents, List.flatMap_map, List.append_nil] at hbalance
      exact hbalance

theorem Settled.balance_idle (h : c.Settled) (hroot : c.root = none) :
    c.books.trace.started.Perm c.books.trace.stopped := by
  simpa [agents, leaves, hroot] using h.balance.2

theorem root_detach_last {id : StatementId} (h : c.statements.map Statement.id = [id]) :
    (detach runtime id c).2.root = none := by
  obtain ⟨s, hs, rfl⟩ := List.map_eq_singleton_iff.1 h
  have hattached : ¬ (!c.isAttached s.id) = true := by simp [isAttached, hs]
  have hlength : c.statements.length = 1 := by rw [hs]; rfl
  rw [detach, if_neg hattached, if_pos hlength]
  rfl

theorem Sound.root_eq_none {strict : Prop} (h : c.Sound strict) (hnone : c.statements = []) :
    c.root = none := by
  by_contra hroot
  exact h.active.1 (Option.isSome_iff_ne_none.2 hroot) hnone

theorem root_attach_error {s : Statement} {e : Error} {c' : Context} (hroot : c.root = none)
    (h : attach runtime s c = (.error e, c')) : c'.root = none := by
  have hcase := attaches runtime s c
  rw [h] at hcase
  cases hcase with
  | taken | unfit | unjoined => exact hroot
  | unawoken => rfl

/-- No instance is orphaned: each that was started is stopped at most once, those that run are those
that were started and not yet stopped, and all have been stopped after the last statement was
detached or the first one could not be attached. -/
theorem agents_settled (h : Reachable (fun _ => True) c) :
    c.books.trace.Paired ∧
    c.books.trace.started.Perm (c.books.trace.stopped ++ c.agents.map Agent.request) ∧
    (∀ runtime id, c.statements.map Statement.id = [id] →
      (detach runtime id c).2.books.trace.started.Perm
        (detach runtime id c).2.books.trace.stopped) ∧
    (∀ runtime s e c', c.statements = [] → attach runtime s c = (.error e, c') →
      c'.books.trace.started.Perm c'.books.trace.stopped) := by
  have hsound : c.Sound False := h.sound False.elim
  have hsettled := h.settled
  refine ⟨hsettled.balance.1, hsettled.balance.2, fun runtime id hlast => ?_,
    fun runtime s e c' hnone herror => ?_⟩
  · exact (hsettled.detach hsound).balance_idle (root_detach_last hlast)
  · have hroot := root_attach_error (hsound.root_eq_none hnone) herror
    have hattach : (attach runtime s c).2.Settled := hsettled.attach hsound
    rw [herror] at hattach
    exact hattach.balance_idle hroot

def failing : Runtime :=
  { start := fun _ _ => .error "full", stop := fun _ _ _ => .error "stuck" }

theorem visited_agents_settled :
    visited.agents.length = 1 ∧
      (detach failing ⟨1⟩ visited).2.books.trace.started.length = 1 ∧
      (detach failing ⟨1⟩ visited).2.books.trace.started.Perm
        (detach failing ⟨1⟩ visited).2.books.trace.stopped := by
  refine ⟨rfl, rfl, ?_⟩
  exact (agents_settled (reachable_visited.mono fun _ _ => trivial)).2.2.1 failing ⟨1⟩ rfl

end Context

end EventContexts
