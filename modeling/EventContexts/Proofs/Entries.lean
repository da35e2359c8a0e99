import EventContexts.OrderedMap
import EventContexts.Table
import EventContexts.Proofs.Lists

namespace EventContexts

namespace Table

variable {α : Type}

theorem nodup_keys (t : Table α) : (t.entries.map Prod.fst).Nodup :=
  t.ascending.imp fun h => UInt32.ne_of_lt h

theorem findIn_eq_some {k : UInt32} {a : α} {es : List (UInt32 × α)}
    (h : (es.map Prod.fst).Nodup) : findIn k es = some a ↔ (k, a) ∈ es := by
  induction es with
  | nil => simp [findIn]
  | cons e rest ih =>
      obtain ⟨l, b⟩ := e
      obtain ⟨hl, hrest⟩ := List.nodup_cons.1 h
      by_cases hk : l = k
      · subst hk
        have hnot : (l, a) ∉ rest := fun hmem => hl (List.mem_map.2 ⟨_, hmem, rfl⟩)
        simp [findIn, hnot, eq_comm]
      · simp [findIn, hk, ih hrest, Ne.symm hk]

theorem get?_eq_some {t : Table α} {k : UInt32} {a : α} :
    t.get? k = some a ↔ (k, a) ∈ t.entries :=
  findIn_eq_some t.nodup_keys

theorem eq_of_mem {t : Table α} {k : UInt32} {a b : α} (ha : (k, a) ∈ t.entries)
    (hb : (k, b) ∈ t.entries) : a = b :=
  congrArg Prod.snd (List.inj_on_of_nodup_map t.nodup_keys ha hb rfl)

theorem get?_eq_none {t : Table α} {k : UInt32} : t.get? k = none ↔ k ∉ t.keys := by
  rw [Option.eq_none_iff_forall_ne_some]
  simp [get?_eq_some, keys]

theorem contains_iff {t : Table α} {k : UInt32} : t.contains k = true ↔ k ∈ t.keys := by
  rw [contains, Option.isSome_iff_ne_none, ne_eq, get?_eq_none, not_not]

theorem mem_erase {t : Table α} {k : UInt32} {e : UInt32 × α} :
    e ∈ (t.erase k).entries ↔ e ∈ t.entries ∧ e.1 ≠ k := by
  simp [erase]

theorem filter_of_lt {k : UInt32} {es : List (UInt32 × α)}
    (h : ∀ x ∈ es.map Prod.fst, k < x) : es.filter (·.1 ≠ k) = es := by
  refine List.filter_eq_self.2 fun e he => ?_
  have hlt : k < e.1 := h e.1 (List.mem_map_of_mem he)
  simpa using (UInt32.ne_of_lt hlt).symm

theorem putIn_perm {k : UInt32} {a : α} {es : List (UInt32 × α)}
    (h : (es.map Prod.fst).Pairwise (· < ·)) :
    (putIn k a es).Perm ((k, a) :: es.filter (·.1 ≠ k)) := by
  induction es with
  | nil => simp [putIn]
  | cons e rest ih =>
      obtain ⟨l, b⟩ := e
      obtain ⟨hl, hrest⟩ := List.pairwise_cons.1 h
      simp only [putIn]
      split
      · next hk =>
          rw [filter_of_lt fun x hx => ?_]
          rcases List.mem_cons.1 hx with rfl | hx
          · exact hk
          · exact UInt32.lt_trans hk (hl x hx)
      · split
        · next hk =>
            subst hk
            have hself := filter_of_lt hl
            rw [List.filter_cons_of_neg (by simp), hself]
        · next hne =>
            rw [List.filter_cons_of_pos (by simpa using Ne.symm hne)]
            exact ((ih hrest).cons (l, b)).trans (List.Perm.swap ..)

theorem insert_perm (t : Table α) (k : UInt32) (a : α) :
    (t.insert k a).entries.Perm ((k, a) :: (t.erase k).entries) :=
  putIn_perm t.ascending

theorem mem_insert {t : Table α} {k : UInt32} {a : α} {e : UInt32 × α} :
    e ∈ (t.insert k a).entries ↔ e = (k, a) ∨ e ∈ t.entries ∧ e.1 ≠ k := by
  rw [(t.insert_perm k a).mem_iff, List.mem_cons, mem_erase]

theorem perm_of_get? {t : Table α} {k : UInt32} {a : α} (h : t.get? k = some a) :
    t.entries.Perm ((k, a) :: (t.erase k).entries) :=
  t.nodup_keys.perm_cons_filter (get?_eq_some.1 h)

theorem erase_entries {t : Table α} {k : UInt32} (h : k ∉ t.keys) :
    (t.erase k).entries = t.entries := by
  refine List.filter_eq_self.2 fun e he => ?_
  have hne : e.1 ≠ k := fun hk => h (hk ▸ List.mem_map_of_mem (f := Prod.fst) he)
  simpa using hne

theorem insert_perm_of_new {t : Table α} {k : UInt32} {a : α} (h : k ∉ t.keys) :
    (t.insert k a).entries.Perm ((k, a) :: t.entries) := by
  simpa [erase_entries h] using t.insert_perm k a

theorem ext_entries {t t' : Table α} (h : t.entries = t'.entries) : t = t' := by
  cases t
  cases t'
  cases h
  rfl

theorem putIn_append {k : UInt32} {a a' : α} {pre post : List (UInt32 × α)}
    (h : ((pre ++ (k, a) :: post).map Prod.fst).Pairwise (· < ·)) :
    putIn k a' (pre ++ (k, a) :: post) = pre ++ (k, a') :: post := by
  induction pre with
  | nil => simp [putIn]
  | cons e pre ih =>
      obtain ⟨l, b⟩ := e
      obtain ⟨hl, hrest⟩ := List.pairwise_cons.1 h
      have hlt : l < k := hl k (by simp)
      have hne : k ≠ l := (UInt32.ne_of_lt hlt).symm
      simp only [List.cons_append, putIn, if_neg (UInt32.lt_asymm hlt), if_neg hne, ih hrest]

theorem split_of_mem {t : Table α} {k : UInt32} {a : α} (h : (k, a) ∈ t.entries) :
    ∃ pre post, t.entries = pre ++ (k, a) :: post ∧ (t.erase k).entries = pre ++ post ∧
      ∀ a', (t.insert k a').entries = pre ++ (k, a') :: post := by
  obtain ⟨pre, post, hsplit⟩ := List.append_of_mem h
  have hascending := t.ascending
  have hnodup := t.nodup_keys
  rw [hsplit] at hascending hnodup
  refine ⟨pre, post, hsplit, ?_, fun a' => ?_⟩
  · rw [List.map_append, List.map_cons, List.nodup_middle, ← List.map_append] at hnodup
    have hnew : k ∉ (pre ++ post).map Prod.fst := (List.nodup_cons.1 hnodup).1
    have hothers : ∀ e ∈ pre ++ post, e.1 ≠ k := by
      rintro e he rfl
      exact hnew (List.mem_map_of_mem he)
    have herase : (t.erase k).entries = t.entries.filter (·.1 ≠ k) := rfl
    rw [herase, hsplit, List.filter_append, List.filter_cons_of_neg (by simp), ← List.filter_append]
    exact List.filter_eq_self.2 fun e he => by simpa using hothers e he
  · have hinsert : (t.insert k a').entries = putIn k a' t.entries := rfl
    rw [hinsert, hsplit]
    exact putIn_append hascending

theorem flatMap_insert {β : Type} {t : Table α} {k : UInt32} {a a' : α}
    {pre mid mid' post : List β} (h : (k, a) ∈ t.entries) (visit : UInt32 × α → List β)
    (ha : visit (k, a) = pre ++ mid ++ post) (ha' : visit (k, a') = pre ++ mid' ++ post) :
    ∃ pre' post', t.entries.flatMap visit = pre' ++ mid ++ post' ∧
      (t.insert k a').entries.flatMap visit = pre' ++ mid' ++ post' := by
  obtain ⟨before, after, hsplit, -, hinsert⟩ := split_of_mem h
  refine ⟨before.flatMap visit ++ pre, post ++ after.flatMap visit, ?_, ?_⟩
  · rw [hsplit, List.flatMap_append, List.flatMap_cons, ha]
    simp only [List.append_assoc]
  · rw [hinsert, List.flatMap_append, List.flatMap_cons, ha']
    simp only [List.append_assoc]

theorem flatMap_erase {β : Type} {t : Table α} {k : UInt32} {a : α} (h : (k, a) ∈ t.entries)
    (visit : UInt32 × α → List β) :
    ∃ pre post, t.entries.flatMap visit = pre ++ visit (k, a) ++ post ∧
      (t.erase k).entries.flatMap visit = pre ++ post := by
  obtain ⟨before, after, hsplit, herase, -⟩ := split_of_mem h
  refine ⟨before.flatMap visit, after.flatMap visit, ?_, ?_⟩
  · rw [hsplit, List.flatMap_append, List.flatMap_cons, List.append_assoc]
  · rw [herase, List.flatMap_append]

theorem insert_self {t : Table α} {k : UInt32} {a : α} (h : (k, a) ∈ t.entries) :
    t.insert k a = t := by
  obtain ⟨pre, post, hsplit, -, hinsert⟩ := split_of_mem h
  exact ext_entries ((hinsert a).trans hsplit.symm)

end Table

namespace OrderedMap

variable {κ α : Type}

@[simp] theorem entries_empty : (empty : OrderedMap κ α).entries = [] := rfl

@[simp] theorem keys_empty : (empty : OrderedMap κ α).keys = [] := rfl

theorem mem_keys {m : OrderedMap κ α} {k : κ} : k ∈ m.keys ↔ ∃ a, (k, a) ∈ m.entries := by
  simp [keys]

theorem eq_of_mem {m : OrderedMap κ α} {k : κ} {a b : α} (ha : (k, a) ∈ m.entries)
    (hb : (k, b) ∈ m.entries) : a = b :=
  congrArg Prod.snd (List.inj_on_of_nodup_map m.nodup ha hb rfl)

variable [DecidableEq κ]

theorem find?_eq_some {m : OrderedMap κ α} {k : κ} {a : α} :
    m.find? k = some a ↔ (k, a) ∈ m.entries := by
  obtain ⟨es, hnd⟩ := m
  induction es with
  | nil => simp [find?, Entries.find?]
  | cons e rest ih =>
      obtain ⟨l, b⟩ := e
      obtain ⟨hl, hrest⟩ := List.nodup_cons.1 hnd
      by_cases hk : l = k
      · subst hk
        have hnot : (l, a) ∉ rest := fun hmem => hl (List.mem_map.2 ⟨_, hmem, rfl⟩)
        simp [find?, Entries.find?, hnot, eq_comm]
      · have hfind : Entries.find? k rest = some a ↔ (k, a) ∈ rest := ih hrest
        simp [find?, Entries.find?, hk, hfind, Ne.symm hk]

theorem find?_eq_none {m : OrderedMap κ α} {k : κ} : m.find? k = none ↔ k ∉ m.keys := by
  rw [Option.eq_none_iff_forall_ne_some]
  simp only [ne_eq, find?_eq_some, mem_keys, not_exists]

theorem contains_iff {m : OrderedMap κ α} {k : κ} : m.contains k = true ↔ k ∈ m.keys := by
  rw [contains, Option.isSome_iff_ne_none, ne_eq, find?_eq_none, not_not]

theorem contains_eq_false {m : OrderedMap κ α} {k : κ} : m.contains k = false ↔ k ∉ m.keys := by
  rw [← Bool.not_eq_true, contains_iff]

theorem not_mem_keys_insert {m : OrderedMap κ α} {k x : κ} {a : α} (hne : x ≠ k)
    (hx : x ∉ m.keys) : x ∉ (m.insert k a).keys :=
  fun hmem => (mem_keys_insert.1 hmem).elim hne hx

theorem insertIn_of_new {k : κ} {a : α} {es : List (κ × α)} (h : k ∉ es.map Prod.fst) :
    Entries.insert k a es = es ++ [(k, a)] := by
  induction es with
  | nil => rfl
  | cons e rest ih =>
      obtain ⟨l, b⟩ := e
      have hne : l ≠ k := fun hk => h (by simp [hk])
      have hrest : k ∉ rest.map Prod.fst := fun hk => h (List.mem_cons_of_mem _ hk)
      simp [Entries.insert, hne, ih hrest]

theorem entries_insert {m : OrderedMap κ α} {k : κ} {a : α} (h : k ∉ m.keys) :
    (m.insert k a).entries = m.entries ++ [(k, a)] :=
  insertIn_of_new h

theorem mem_erase {m : OrderedMap κ α} {k : κ} {e : κ × α} :
    e ∈ (m.erase k).entries ↔ e ∈ m.entries ∧ e.1 ≠ k := by
  simp [erase, filter]

theorem mem_erase_of_tail {m : OrderedMap κ α} {e e' : κ × α} {rest : List (κ × α)}
    (hnodup : ((e :: rest).map Prod.fst).Nodup) (hrest : e' ∈ rest) (hmem : e' ∈ m.entries) :
    e' ∈ (m.erase e.1).entries := by
  have hnew : e.1 ∉ rest.map Prod.fst := (List.nodup_cons.1 hnodup).1
  exact mem_erase.2 ⟨hmem, fun heq => hnew (List.mem_map.2 ⟨e', hrest, heq⟩)⟩

theorem entries_erase_head {m : OrderedMap κ α} {e : κ × α} {rest : List (κ × α)}
    (h : m.entries = e :: rest) : (m.erase e.1).entries = rest := by
  have hnodup := m.nodup
  rw [h, List.map_cons, List.nodup_cons] at hnodup
  have herase : (m.erase e.1).entries = m.entries.filter fun e' => e'.1 ≠ e.1 := rfl
  rw [herase, h, List.filter_cons_of_neg (by simp)]
  refine List.filter_eq_self.2 fun e' he' => decide_eq_true fun heq => hnodup.1 ?_
  exact heq ▸ List.mem_map_of_mem he'

theorem mem_keys_erase {m : OrderedMap κ α} {k l : κ} :
    l ∈ (m.erase k).keys ↔ l ∈ m.keys ∧ l ≠ k := by
  simp [mem_keys, mem_erase]

theorem erase_perm {m : OrderedMap κ α} {k : κ} {a : α} (h : (k, a) ∈ m.entries) :
    m.entries.Perm ((k, a) :: (m.erase k).entries) :=
  m.nodup.perm_cons_filter h

theorem keys_insertIn {k : κ} {a : α} {es : List (κ × α)} : (Entries.insert k a es).map Prod.fst =
    if k ∈ es.map Prod.fst then es.map Prod.fst else es.map Prod.fst ++ [k] := by
  induction es with
  | nil => rfl
  | cons e rest ih =>
      obtain ⟨l, b⟩ := e
      by_cases hl : l = k
      · simp [Entries.insert, hl]
      · simp only [Entries.insert, if_neg hl, List.map_cons, List.mem_cons, Ne.symm hl, false_or,
          ih]
        split <;> rfl

theorem keys_insert {m : OrderedMap κ α} {k : κ} {a : α} :
    (m.insert k a).keys = if k ∈ m.keys then m.keys else m.keys ++ [k] :=
  keys_insertIn

theorem eq_of_find? {m n : OrderedMap κ α} (hkeys : m.keys = n.keys)
    (hfind : ∀ k, m.find? k = n.find? k) : m = n := by
  have hmap (m : OrderedMap κ α) : m.entries.map (fun e => (e.1, some e.2)) =
      m.keys.map fun k => (k, m.find? k) := by
    rw [keys, List.map_map]
    apply List.map_congr_left
    intro e he
    exact congrArg (Prod.mk e.1) (find?_eq_some.2 he).symm
  have hpair : Function.Injective fun e : κ × α => (e.1, some e.2) := by
    rintro ⟨k, a⟩ ⟨l, b⟩ h
    simpa using h
  have hentries : m.entries = n.entries := by
    apply hpair.list_map
    simp only [hmap, hkeys, hfind]
  cases m
  cases n
  cases hentries
  rfl

@[simp] theorem entries_singleton {k : κ} {a : α} :
    (ofPairs [(k, a)]).entries = [(k, a)] := rfl

end OrderedMap

section pairs

variable {κ α : Type} [DecidableEq κ] {k : κ} {pairs es : List (κ × α)}

theorem Entries.foldl_insert (h : ((es ++ pairs).map Prod.fst).Nodup) :
    pairs.foldl (fun es p => insert p.1 p.2 es) es = es ++ pairs := by
  induction pairs generalizing es with
  | nil => exact (List.append_nil es).symm
  | cons p rest ih =>
      rw [List.append_cons] at h
      have hp : p.1 ∉ es.map Prod.fst := by
        rw [List.map_append, List.map_append] at h
        have hdisjoint := (List.nodup_append.1 (List.nodup_append.1 h).1).2.2
        exact fun hmem => hdisjoint _ hmem _ (List.mem_singleton_self _) rfl
      rw [List.foldl_cons, OrderedMap.insertIn_of_new hp, ih h, List.append_cons es p rest]

theorem Entries.mem_of_find?_foldl {a : α}
    (h : find? k (pairs.foldl (fun es p => insert p.1 p.2 es) es) = some a) :
    (k, a) ∈ pairs ∨ find? k es = some a := by
  induction pairs generalizing es with
  | nil => exact .inr h
  | cons p rest ih =>
      rcases ih h with hmem | hfind
      · exact .inl (List.mem_cons_of_mem _ hmem)
      · rw [find?_insert] at hfind
        split at hfind
        · next heq =>
            obtain rfl := Option.some.inj hfind
            exact .inl (heq ▸ List.mem_cons_self ..)
        · exact .inr hfind

theorem Entries.find?_foldl_of_not_mem (h : k ∉ pairs.map Prod.fst) :
    find? k (pairs.foldl (fun es p => insert p.1 p.2 es) es) = find? k es := by
  induction pairs generalizing es with
  | nil => rfl
  | cons p rest ih =>
      rw [List.map_cons, List.mem_cons, not_or] at h
      rw [List.foldl_cons, ih h.2, find?_insert, if_neg (Ne.symm h.1)]

theorem Entries.find?_foldl_of_mem {a : α} (hnodup : (pairs.map Prod.fst).Nodup)
    (h : (k, a) ∈ pairs) :
    find? k (pairs.foldl (fun es p => insert p.1 p.2 es) es) = some a := by
  induction pairs generalizing es with
  | nil => cases h
  | cons p rest ih =>
      obtain ⟨hp, hrest⟩ := List.nodup_cons.1 hnodup
      rw [List.foldl_cons]
      rcases List.mem_cons.1 h with rfl | h
      · rw [find?_foldl_of_not_mem hp, find?_insert, if_pos rfl]
      · exact ih hrest h

theorem OrderedMap.mem_of_find?_ofPairs {a : α} (h : (ofPairs pairs).find? k = some a) :
    (k, a) ∈ pairs :=
  (Entries.mem_of_find?_foldl h).elim id nofun

theorem Entries.ofPairs_eq (h : (pairs.map Prod.fst).Nodup) : ofPairs pairs = pairs := by
  have hnodup : (([] ++ pairs).map Prod.fst).Nodup := h
  exact foldl_insert hnodup

theorem OrderedMap.entries_ofPairs (h : (pairs.map Prod.fst).Nodup) :
    (ofPairs pairs).entries = pairs :=
  Entries.ofPairs_eq h

theorem OrderedMap.keys_ofPairs (h : (pairs.map Prod.fst).Nodup) :
    (ofPairs pairs).keys = pairs.map Prod.fst :=
  congrArg (List.map Prod.fst) (entries_ofPairs h)

end pairs

end EventContexts
