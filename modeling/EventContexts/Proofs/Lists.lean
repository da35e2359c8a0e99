import Mathlib.Data.List.Forall2
import Mathlib.Data.List.Nodup
import Mathlib.Data.List.Perm.Subperm

namespace List

variable {α β γ δ : Type}

theorem map_eq_self {f : α → α} {xs : List α} (h : ∀ x ∈ xs, f x = x) : xs.map f = xs :=
  (map_congr_left h).trans (map_id xs)

theorem mapM_map_eq_some {write : α → β} {read? : β → Option γ} {f : α → γ} {xs : List α}
    (h : ∀ x ∈ xs, read? (write x) = some (f x)) :
    (xs.map write).mapM read? = some (xs.map f) := by
  induction xs with
  | nil => rfl
  | cons x rest ih =>
      rw [map_cons, mapM_cons, h x (mem_cons_self ..), ih fun y hy => h y (mem_cons_of_mem _ hy)]
      rfl

theorem foldlM_eq_append_flatMap {step : List β → α → Option (List β)} {out : α → List β}
    {items : List α} (h : ∀ a ∈ items, ∀ done, step done a = some (done ++ out a))
    (done : List β) : items.foldlM step done = some (done ++ items.flatMap out) := by
  induction items generalizing done with
  | nil => simp
  | cons a rest ih =>
      rw [foldlM_cons, h a (mem_cons_self ..)]
      simp [ih fun b hb => h b (mem_cons_of_mem _ hb)]

theorem singleton_intercalate_cons (sep : α) (x : List α) (xs : List (List α)) :
    [sep].intercalate (x :: xs) = x ++ xs.flatMap fun y => sep :: y := by
  induction xs generalizing x with
  | nil => simp [intercalate]
  | cons y ys ih => simp [intercalate_cons_cons, ih]

section nodup

theorem Subperm.nodup {xs ys : List α} (h : xs.Subperm ys) (hys : ys.Nodup) : xs.Nodup := by
  obtain ⟨zs, hzs, hsub⟩ := h
  exact hzs.nodup_iff.1 (hys.sublist hsub)

theorem Nodup.eq_of_mem_flatMap {f : α → List β} {xs : List α} (h : (xs.flatMap f).Nodup)
    {x y : α} {b : β} (hx : x ∈ xs) (hy : y ∈ xs) (hbx : b ∈ f x) (hby : b ∈ f y) : x = y := by
  let all : List (α × β) := xs.flatMap fun x => (f x).map (Prod.mk x)
  have hmap : all.map Prod.snd = xs.flatMap f := by
    rw [map_flatMap]
    exact flatMap_congr fun x _ => map_map.trans (map_id _)
  have hall {x : α} (hx : x ∈ xs) (hb : b ∈ f x) : (x, b) ∈ all :=
    mem_flatMap.2 ⟨x, hx, mem_map_of_mem hb⟩
  rw [← hmap] at h
  exact congrArg Prod.fst (inj_on_of_nodup_map h (hall hx hbx) (hall hy hby) rfl)

theorem Nodup.perm_cons_filter [DecidableEq α] {k : α} {b : β} {es : List (α × β)}
    (hnodup : (es.map Prod.fst).Nodup) (h : (k, b) ∈ es) :
    es.Perm ((k, b) :: es.filter (·.1 ≠ k)) := by
  induction es with
  | nil => simp at h
  | cons e rest ih =>
      obtain ⟨hl, hrest⟩ := nodup_cons.1 hnodup
      rcases mem_cons.1 h with rfl | h
      · have hself : rest.filter (·.1 ≠ k) = rest := by
          refine filter_eq_self.2 fun e he => ?_
          simpa using fun hk => hl (mem_map.2 ⟨e, he, hk⟩)
        rw [filter_cons_of_neg (by simp), hself]
      · have hne : e.1 ≠ k := fun hk => hl (mem_map.2 ⟨_, h, hk.symm⟩)
        rw [filter_cons_of_pos (by simpa using hne)]
        exact ((ih hrest h).cons e).trans (Perm.swap ..)

end nodup

section ascending

variable {ps qs : List UInt32}

theorem eq_of_perm_of_ascending (hps : ps.Pairwise (· < ·)) (hqs : qs.Pairwise (· < ·))
    (h : ps.Perm qs) : ps = qs :=
  h.eq_of_pairwise (fun _ _ _ _ hlt hgt => absurd hgt (UInt32.lt_asymm hlt)) hps hqs

theorem length_le_of_ascending (h : ps.Pairwise (· < ·)) : ps.length ≤ UInt32.size := by
  have hnodup : (ps.map UInt32.toNat).Nodup :=
    (h.imp fun hlt => UInt32.ne_of_lt hlt).map UInt32.toNat fun p q hne heq =>
      hne (UInt32.toNat_inj.1 heq)
  have hsub : ps.map UInt32.toNat ⊆ range UInt32.size := by
    intro n hn
    obtain ⟨p, -, rfl⟩ := mem_map.1 hn
    exact mem_range.2 p.toNat_lt_size
  simpa using (subperm_of_subset hnodup hsub).length_le

end ascending

section related

variable {R : α → β → Prop} {xs : List α} {ys : List β}

theorem Forall₂.map_eq {f : α → γ} {g : β → γ} (h : Forall₂ (fun a b => f a = g b) xs ys) :
    xs.map f = ys.map g := by
  rw [← forall₂_eq_eq_eq, forall₂_map_left_iff, forall₂_map_right_iff]
  exact h

theorem Forall₂.flatMap_eq {f : α → List γ} {g : β → List γ}
    (h : Forall₂ (fun a b => f a = g b) xs ys) : xs.flatMap f = ys.flatMap g := by
  rw [flatMap_def, flatMap_def, h.map_eq]

theorem Forall₂.forall_right {P : β → Prop} (h : Forall₂ (fun _ b => P b) xs ys) :
    ∀ b ∈ ys, P b := by
  induction h with
  | nil => simp
  | cons hb _ ih => exact forall_mem_cons.2 ⟨hb, ih⟩

theorem Forall₂.comp {S : β → γ → Prop} {zs : List γ} (h : Forall₂ R xs ys)
    (h' : Forall₂ S ys zs) : Forall₂ (fun a c => ∃ b, R a b ∧ S b c) xs zs := by
  induction h generalizing zs with
  | nil =>
      cases h'
      exact .nil
  | cons hx _ ih =>
      cases h' with
      | cons hy hys => exact .cons ⟨_, hx, hy⟩ (ih hys)

theorem Forall₂.findSome? {P : γ → δ → Prop} {f : α → Option γ} {g : β → Option δ}
    (h : Forall₂ R xs ys) (hfg : ∀ x y, R x y → Option.Rel P (f x) (g y)) :
    Option.Rel P (xs.findSome? f) (ys.findSome? g) := by
  induction h with
  | nil => exact .none
  | @cons x y xs ys hxy _ ih =>
      have hhead := hfg x y hxy
      rw [findSome?_cons, findSome?_cons]
      revert hhead
      cases f x <;> cases g y <;> rintro (hP | -)
      · exact ih
      · exact .some hP

theorem subset_of_unique (hR : ∀ a a' b, R a b → R a' b → a = a') {ps qs : List (α × β)}
    (hps : ∀ p ∈ ps, R p.1 p.2) (hqs : ∀ q ∈ qs, R q.1 q.2)
    (h : ps.map Prod.snd ⊆ qs.map Prod.snd) : ps ⊆ qs := by
  rintro ⟨a, b⟩ hp
  obtain ⟨⟨a', _⟩, hq, rfl⟩ := mem_map.1 (h (mem_map_of_mem hp))
  obtain rfl : a = a' := hR a a' _ (hps _ hp) (hqs _ hq)
  exact hq

theorem Forall₂.exists_zip (h : Forall₂ R xs ys) (hR : ∀ a a' b, R a b → R a' b → a = a')
    (hys : ys.Nodup) {ps : List (α × β)} (hps : ∀ p ∈ ps, R p.1 p.2)
    (hperm : (ps.map Prod.snd).Perm ys) :
    ∃ zs : List (α × β), zs.map Prod.fst = xs ∧ zs.map Prod.snd = ys ∧ zs.Perm ps := by
  have hsnd : (xs.zip ys).map Prod.snd = ys := map_snd_zip (Nat.le_of_eq h.length_eq.symm)
  have hsame : ((xs.zip ys).map Prod.snd).Perm (ps.map Prod.snd) := hsnd.symm ▸ hperm.symm
  have hzs : ∀ z ∈ xs.zip ys, R z.1 z.2 := fun z hz => forall₂_zip h hz
  have hnodup : (xs.zip ys).Nodup := (hsnd.symm ▸ hys : ((xs.zip ys).map Prod.snd).Nodup).of_map
  have hnodup' : ps.Nodup := (hperm.nodup_iff.2 hys).of_map
  refine ⟨xs.zip ys, map_fst_zip (Nat.le_of_eq h.length_eq), hsnd, ?_⟩
  refine (perm_ext_iff_of_nodup hnodup hnodup').2 fun z => ⟨fun hz => ?_, fun hp => ?_⟩
  · exact subset_of_unique hR hzs hps hsame.subset hz
  · exact subset_of_unique hR hps hzs hsame.symm.subset hp

end related

end List
