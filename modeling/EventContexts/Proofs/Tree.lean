import EventContexts.Context.Branches
import EventContexts.Proofs.Accounts
import EventContexts.Proofs.Controller

namespace EventContexts

def Child : List Level → Type
  | [] => Running
  | _ :: below => Branch (Children below)

namespace Child

def key : {below : List Level} → Child below → Key
  | [], r => Running.key r
  | _ :: _, b => Branch.key b

def properties : {below : List Level} → Child below → Props
  | [], r => Running.properties r
  | _ :: _, b => Branch.properties b

def handle (id : ControllerId) (k : UInt32) : {below : List Level} → Child below → Handle
  | [], r => .leaf id k (Running.generation r)
  | _ :: _, b => .branch id k (Branch.node b).controller.id

end Child

namespace Children

def table : {below : List Level} → Children below → Table (Child below)
  | [], partitions => partitions
  | _ :: _, branches => branches

def erase (k : UInt32) : {below : List Level} → Children below → Children below
  | [], partitions =>
      let partitions : Table Running := partitions
      partitions.erase k
  | _ :: below, branches =>
      let branches : Table (Branch (Children below)) := branches
      branches.erase k

def numbers : {below : List Level} → Children below → List Number
  | [], partitions =>
      let partitions : Table Running := partitions
      partitions.entries.flatMap fun (p, r) => [.partition p, .generation r.generation]
  | _ :: below, branches =>
      let branches : Table (Branch (Children below)) := branches
      branches.entries.flatMap fun (_, b) =>
        .controller b.node.controller.id :: numbers b.node.children

end Children

def Child.numbers : {below : List Level} → UInt32 × Child below → List Number
  | [], (p, r) => [.partition p, .generation (Running.generation r)]
  | _ :: _, (_, b) =>
      .controller (Branch.node b).controller.id :: (Branch.node b).children.numbers

def Node.without {below : List Level} (h : Handle) (node : Node (Children below)) :
    Node (Children below) :=
  { controller := node.controller.forget h, children := node.children.erase h.id }

def Node.numbers {below : List Level} (node : Node (Children below)) : List Number :=
  .controller node.controller.id :: node.children.numbers

variable {below : List Level} {id : ControllerId} {strict : Prop} {Q Q' : Leaf → Prop}
  {path : Path} {post : Post} {brood : Brood}

/-- The children of a controller. It remembers them all, and nothing else, where children are
started by controllers only. -/
structure Family (strict : Prop) (id : ControllerId) (each : UInt32 × Child below → Prop)
    (brood : Brood) (children : Table (Child below)) : Prop where
  remembered : strict →
    brood.entries.Perm (children.entries.map fun e => (e.2.key, e.2.handle id e.1))
  each : ∀ e ∈ children.entries, each e

/-- A child in order: under it, every controller is at its post with its family, and `Q` holds of
every partition. -/
def Child.Sound (Q : Leaf → Prop) (strict : Prop) :
    (below : List Level) → Path → Post → UInt32 × Child below → Prop
  | [], path, post, (p, r) =>
      let r : Running := r
      Q ⟨path ++ [⟨post.level, r.key, r.properties⟩], post.id, p, r⟩
  | l :: below, path, post, (k, b) =>
      let b : Branch (Children below) := b
      let post' : Post := ⟨b.node.controller.id, k, post.nesting + 1, l⟩
      let path := path ++ [⟨post.level, b.key, b.properties⟩]
      Controller.Manned post'
        (fun brood children =>
          Family strict post'.id (Child.Sound Q strict below path post') brood children.table)
        b.node.controller b.node.children

def Children.Sound (Q : Leaf → Prop) (strict : Prop) (below : List Level) (path : Path)
    (post : Post) (brood : Brood) (children : Children below) : Prop :=
  Family strict post.id (Child.Sound Q strict below path post) brood children.table

def Node.Sound (Q : Leaf → Prop) (strict : Prop) (below : List Level) (path : Path) (post : Post)
    (node : Node (Children below)) : Prop :=
  Controller.Manned post (Children.Sound Q strict below path post) node.controller node.children

namespace Child

theorem sound_branch {l : Level} {k : UInt32} {b : Branch (Children below)} :
    Child.Sound Q strict (l :: below) path post (k, b) ↔
      Node.Sound Q strict below (path ++ [⟨post.level, b.key, b.properties⟩])
        ⟨b.node.controller.id, k, post.nesting + 1, l⟩ b.node :=
  Iff.rfl

theorem handle_inj {k l : UInt32} {a b : Child below} (h : a.handle id k = b.handle id l) :
    k = l := by
  cases below with
  | nil => exact (Handle.leaf.inj h).2.1
  | cons l below => exact (Handle.branch.inj h).2.1

theorem id_handle {k : UInt32} {a : Child below} : (a.handle id k).id = k := by
  cases below <;> rfl

theorem owner_handle {k : UInt32} {a : Child below} : (a.handle id k).owner = id := by
  cases below <;> rfl

theorem Sound.mono {e : UInt32 × Child below} (h : Child.Sound Q strict below path post e)
    (hQ : ∀ ℓ : Leaf, path ++ [⟨post.level, e.2.key, e.2.properties⟩] <+: ℓ.path → Q ℓ → Q' ℓ) :
    Child.Sound Q' strict below path post e := by
  induction below generalizing path post with
  | nil => exact hQ _ (List.prefix_refl _) h
  | cons l below ih =>
      obtain ⟨k, b⟩ := e
      refine ⟨h.stands, h.tended.mono fun hf => ⟨hf.remembered, fun e' he' => ?_⟩⟩
      refine ih (hf.each e' he') fun ℓ hunder => hQ ℓ ?_
      exact (List.prefix_append _ _).trans hunder

end Child

namespace Family

variable {each each' : UInt32 × Child below → Prop} {t : Table (Child below)}

theorem mono (h : Family strict id each brood t) (heach : ∀ e ∈ t.entries, each e → each' e) :
    Family strict id each' brood t :=
  ⟨h.remembered, fun e he => heach e he (h.each e he)⟩

theorem empty : Family strict id each OrderedMap.empty t ↔ (strict → t.entries = []) ∧
    ∀ e ∈ t.entries, each e := by
  constructor
  · refine fun h => ⟨fun hs => ?_, h.each⟩
    have hnil : [].Perm (t.entries.map fun e => (e.2.key, e.2.handle id e.1)) := h.remembered hs
    exact List.map_eq_nil_iff.1 (List.nil_perm.1 hnil)
  · rintro ⟨hs, heach⟩
    refine ⟨fun hstrict => ?_, heach⟩
    rw [hs hstrict]
    exact List.Perm.refl _

theorem insert (h : Family strict id each brood t) {k : UInt32} {a : Child below}
    (hk : k ∉ t.keys) (hkey : a.key ∉ brood.keys) (ha : each (k, a)) :
    Family strict id each (brood.insert a.key (a.handle id k)) (t.insert k a) where
  remembered hs := by
    let f (e : UInt32 × Child below) : Key × Handle := (e.2.key, e.2.handle id e.1)
    have ht : ((t.insert k a).entries.map f).Perm (f (k, a) :: t.entries.map f) :=
      (Table.insert_perm_of_new hk).map f
    rw [OrderedMap.entries_insert hkey]
    exact List.perm_append_comm.trans (((h.remembered hs).cons _).trans ht.symm)
  each e he := by
    rcases Table.mem_insert.1 he with rfl | ⟨he, -⟩
    · exact ha
    · exact h.each e he

theorem erase (h : Family strict id each brood t) {k : UInt32} {a : Child below}
    (hmem : (k, a) ∈ t.entries) {key : Key} (hkey : strict → a.key = key) :
    Family strict id each (brood.erase key) (t.erase k) where
  remembered hs := by
    let f (e : UInt32 × Child below) : Key × Handle := (e.2.key, e.2.handle id e.1)
    have hperm := h.remembered hs
    have hbrood : (key, a.handle id k) ∈ brood.entries := by
      rw [hperm.mem_iff, ← hkey hs]
      exact List.mem_map_of_mem (f := f) hmem
    have ht : (t.entries.map f).Perm (f (k, a) :: (t.erase k).entries.map f) :=
      (Table.perm_of_get? (Table.get?_eq_some.2 hmem)).map f
    have hf : f (k, a) = (key, a.handle id k) := by rw [← hkey hs]
    rw [hf] at ht
    exact ((OrderedMap.erase_perm hbrood).symm.trans (hperm.trans ht)).cons_inv
  each e he := h.each e (Table.mem_erase.1 he).1

theorem remembered_iff (h : Family strict id each brood t) (hs : strict) {e : UInt32 × Child below}
    (he : e ∈ t.entries) {p : Key × Handle} (hp : p ∈ brood.entries) :
    p.2 = e.2.handle id e.1 ↔ p = (e.2.key, e.2.handle id e.1) := by
  constructor
  · intro hhandle
    obtain ⟨⟨k, a⟩, hmem, rfl⟩ := List.mem_map.1 ((h.remembered hs).mem_iff.1 hp)
    obtain ⟨l, c⟩ := e
    obtain rfl := Child.handle_inj hhandle
    rw [Table.eq_of_mem hmem he]
  · rintro rfl
    rfl

theorem nodup_keys (h : Family strict id each brood t) (hs : strict) :
    (t.entries.map fun e => e.2.key).Nodup := by
  have hkeys := ((h.remembered hs).map Prod.fst).nodup_iff.1 brood.nodup
  rwa [List.map_map] at hkeys

theorem key_inj (h : Family strict id each brood t) (hs : strict) {x y : UInt32 × Child below}
    (hx : x ∈ t.entries) (hy : y ∈ t.entries) (hkey : x.2.key = y.2.key) : x = y :=
  List.inj_on_of_nodup_map (h.nodup_keys hs) hx hy hkey

theorem forget (h : Family strict id each brood t) {k : UInt32} {a : Child below}
    (hmem : (k, a) ∈ t.entries) {brood' : Brood}
    (hbrood : brood'.entries = brood.entries.filter fun p => p.2 ≠ a.handle id k) :
    Family strict id each brood' (t.erase k) where
  remembered hs := by
    have hone : ∀ p ∈ brood.entries, p.2 = a.handle id k ↔ p.1 = a.key := by
      intro p hp
      rw [h.remembered_iff hs hmem hp]
      constructor
      · rintro rfl
        rfl
      · intro hkey
        have ha : (a.key, a.handle id k) ∈ brood.entries :=
          (h.remembered hs).mem_iff.2 (List.mem_map.2 ⟨(k, a), hmem, rfl⟩)
        rw [← OrderedMap.eq_of_mem (hkey ▸ hp : (a.key, p.2) ∈ brood.entries) ha, ← hkey]
    have hfilter : brood'.entries = (brood.erase a.key).entries := by
      rw [hbrood]
      refine List.filter_congr fun p hp => ?_
      simp only [ne_eq, hone p hp]
    rw [hfilter]
    exact (h.erase hmem fun _ => rfl).remembered hs
  each e he := h.each e (Table.mem_erase.1 he).1

theorem replace (h : Family strict id each brood t) {k : UInt32} {a a' : Child below}
    (hmem : (k, a) ∈ t.entries) (hkey : a'.key = a.key) (hhandle : a'.handle id k = a.handle id k)
    (hold : ∀ e ∈ t.entries, e.1 ≠ k → each e → each' e) (hnew : each' (k, a')) :
    Family strict id each' brood (t.insert k a') where
  remembered hs := by
    let f (e : UInt32 × Child below) : Key × Handle := (e.2.key, e.2.handle id e.1)
    have ht : (t.entries.map f).Perm (f (k, a) :: (t.erase k).entries.map f) :=
      (Table.perm_of_get? (Table.get?_eq_some.2 hmem)).map f
    have ht' : ((t.insert k a').entries.map f).Perm (f (k, a') :: (t.erase k).entries.map f) :=
      (t.insert_perm k a').map f
    have hf : f (k, a') = f (k, a) := by simp only [f, hkey, hhandle]
    rw [hf] at ht'
    exact (h.remembered hs).trans (ht.trans ht'.symm)
  each e he := by
    rcases Table.mem_insert.1 he with rfl | ⟨he, hne⟩
    · exact hnew
    · exact hold e he hne (h.each e he)

end Family

namespace Children

theorem numbers_eq (children : Children below) :
    children.numbers = children.table.entries.flatMap Child.numbers := by
  cases below <;> rfl

theorem partition_mem_numbers {partitions : Children []} {p : UInt32}
    (h : p ∈ partitions.table.keys) : Number.partition p ∈ partitions.numbers := by
  obtain ⟨e, he, rfl⟩ := List.mem_map.1 h
  exact List.mem_flatMap.2 ⟨e, he, List.mem_cons_self ..⟩

@[simp] theorem numbers_empty : (Children.empty below).numbers = [] := by
  cases below <;> rfl

theorem entries_empty : (Children.empty below).table.entries = [] := by
  cases below <;> rfl

theorem table_erase (children : Children below) {k : UInt32} :
    (children.erase k).table = children.table.erase k := by
  cases below <;> rfl

theorem numbers_of_insert {children children' : Children below} {k : UInt32} {a : Child below}
    (h : children'.table = children.table.insert k a) (hk : k ∉ children.table.keys) :
    children'.numbers.Perm (Child.numbers (k, a) ++ children.numbers) := by
  rw [numbers_eq, numbers_eq, h]
  exact (Table.insert_perm_of_new hk).flatMap_right _

theorem numbers_of_mem {children : Children below} (children' : Children below) {k : UInt32}
    {a : Child below} (h : children'.table = children.table.erase k)
    (hmem : (k, a) ∈ children.table.entries) :
    children.numbers.Perm (Child.numbers (k, a) ++ children'.numbers) := by
  rw [numbers_eq, numbers_eq, h]
  exact (Table.perm_of_get? (Table.get?_eq_some.2 hmem)).flatMap_right _

theorem holds_iff {children : Children below} {h : Handle} :
    Setting.holds below children id h = true ↔
      ∃ e ∈ children.table.entries, h = e.2.handle id e.1 := by
  cases below with
  | nil =>
      let t : Table Running := children
      cases h with
      | branch parent k child => simp [Setting.holds, Child.handle]
      | leaf owner p g =>
          rw [Setting.holds, Bool.and_eq_true, beq_iff_eq, Option.any_eq_true]
          constructor
          · rintro ⟨rfl, r, hget, hg⟩
            exact ⟨(p, r), Table.get?_eq_some.1 hget, by rw [Child.handle, eq_of_beq hg]⟩
          · rintro ⟨⟨p', r⟩, hmem, heq⟩
            obtain ⟨rfl, rfl, rfl⟩ := Handle.leaf.inj heq
            exact ⟨rfl, r, Table.get?_eq_some.2 hmem, beq_self_eq_true _⟩
  | cons l below =>
      let t : Table (Branch (Children below)) := children
      cases h with
      | leaf owner p g => simp [Setting.holds, Child.handle]
      | branch parent k child =>
          rw [Setting.holds, Bool.and_eq_true, beq_iff_eq, Option.any_eq_true]
          constructor
          · rintro ⟨rfl, b, hget, hc⟩
            exact ⟨(k, b), Table.get?_eq_some.1 hget, by rw [Child.handle, eq_of_beq hc]⟩
          · rintro ⟨⟨k', b⟩, hmem, heq⟩
            obtain ⟨rfl, rfl, rfl⟩ := Handle.branch.inj heq
            exact ⟨rfl, b, Table.get?_eq_some.2 hmem, beq_self_eq_true _⟩

end Children

namespace Node

theorem filterMap_numbers {α : Type} {f : Number → Option α} (hf : ∀ id, f (.controller id) = none)
    (node : Node (Children below)) (path : Path) :
    node.children.numbers.filterMap f = (node.leaves below path).flatMap fun ℓ =>
      [Number.partition ℓ.partition, .generation ℓ.running.generation].filterMap f := by
  induction below generalizing path with
  | nil =>
      let t : Table Running := node.children
      rw [Children.numbers, List.filterMap_flatMap, Node.leaves, List.flatMap_map]
  | cons l below ih =>
      let t : Table (Branch (Children below)) := node.children
      rw [Children.numbers, List.filterMap_flatMap, Node.leaves, List.flatMap_assoc]
      refine List.flatMap_congr fun e _ => ?_
      rw [List.filterMap_cons_none (hf _)]
      exact ih e.2.node _

theorem partitions_numbers (node : Node (Children below)) (path : Path) :
    node.children.numbers.filterMap Number.partition? =
      (node.leaves below path).map Leaf.partition := by
  rw [filterMap_numbers (fun _ => rfl) node path, List.map_eq_flatMap]
  rfl

theorem generations_numbers (node : Node (Children below)) (path : Path) :
    node.children.numbers.filterMap Number.generation? =
      (node.leaves below path).map fun ℓ => ℓ.running.generation := by
  rw [filterMap_numbers (fun _ => rfl) node path, List.map_eq_flatMap]
  rfl

theorem Sound.refine {node : Node (Children below)} (h : node.Sound Q strict below path post)
    (hQ : ∀ ℓ ∈ node.leaves below path, Q ℓ → Q' ℓ) : node.Sound Q' strict below path post := by
  induction below generalizing path post with
  | nil =>
      obtain ⟨rfl, hlevel, hsound, hfamily⟩ := h
      refine ⟨rfl, hlevel, hsound, hfamily.mono fun e he hQe => ?_⟩
      exact hQ _ (List.mem_map_of_mem he) hQe
  | cons l below ih =>
      obtain ⟨rfl, hlevel, hsound, hfamily⟩ := h
      refine ⟨rfl, hlevel, hsound, hfamily.mono fun e he hbranch => ?_⟩
      refine Child.sound_branch.2 (ih (Child.sound_branch.1 hbranch) fun ℓ hℓ => hQ ℓ ?_)
      exact List.mem_flatMap.2 ⟨e, he, hℓ⟩

theorem Sound.levels {node : Node (Children below)} (h : node.Sound Q strict below path post)
    {ℓ : Leaf} (hℓ : ℓ ∈ node.leaves below path) :
    ∀ step ∈ ℓ.path, step ∈ path ∨ step.level ∈ post.level :: below := by
  induction below generalizing path post with
  | nil =>
      obtain ⟨rfl, -⟩ := h
      obtain ⟨e, he, rfl⟩ := List.mem_map.1 hℓ
      intro step hstep
      rcases List.mem_append.1 hstep with hstep | hstep
      · exact .inl hstep
      · rw [List.mem_singleton.1 hstep]
        exact .inr (List.mem_cons_self ..)
  | cons l below ih =>
      obtain ⟨rfl, -, -, hfamily⟩ := h
      obtain ⟨e, he, hℓ⟩ := List.mem_flatMap.1 hℓ
      intro step hstep
      rcases ih (Child.sound_branch.1 (hfamily.each e he)) hℓ step hstep with hstep | hlevel
      · rcases List.mem_append.1 hstep with hstep | hstep
        · exact .inl hstep
        · rw [List.mem_singleton.1 hstep]
          exact .inr (List.mem_cons_self ..)
      · exact .inr (List.mem_cons_of_mem _ hlevel)

theorem Sound.leaves {node : Node (Children below)} (h : node.Sound Q strict below path post) :
    ∀ ℓ ∈ node.leaves below path, Q ℓ := by
  induction below generalizing path post with
  | nil =>
      obtain ⟨rfl, -, -, hfamily⟩ := h
      intro ℓ hℓ
      obtain ⟨e, he, rfl⟩ := List.mem_map.1 hℓ
      exact hfamily.each e he
  | cons l below ih =>
      obtain ⟨rfl, -, -, hfamily⟩ := h
      intro ℓ hℓ
      obtain ⟨e, he, hℓ⟩ := List.mem_flatMap.1 hℓ
      exact ih (Child.sound_branch.1 (hfamily.each e he)) ℓ hℓ

end Node

end EventContexts
