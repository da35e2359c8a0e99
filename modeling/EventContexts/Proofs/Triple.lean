import EventContexts.Act

namespace EventContexts.Act

variable {σ μ α β : Type}

/-- `Q` holds of a result and `E` of a failure, with the state that is left. -/
def Ends {ε : Type} (Q : α → σ → Prop) (E : ε → σ → Prop) : Except ε α × σ → Prop
  | (.ok a, s) => Q a s
  | (.error e, s) => E e s

def Triple (P : σ → Prop) (x : Act σ α) (Q : α → σ → Prop) (E : Error → σ → Prop) : Prop :=
  ∀ s, P s → Ends Q E (x s)

abbrev Keeps (P : σ → Prop) (x : Act σ α) : Prop := Triple P x (fun _ => P) (fun _ => P)

section ends

variable {ε : Type} {P : σ → Prop} {Q Q' : α → σ → Prop} {E E' : ε → σ → Prop}
  {o o' : Except ε α × σ}

@[simp] theorem ends_ok {a : α} {s : σ} : Ends Q E (.ok a, s) ↔ Q a s := Iff.rfl

@[simp] theorem ends_error {e : ε} {s : σ} : Ends Q E (.error e, s) ↔ E e s := Iff.rfl

theorem Ends.imp (h : Ends Q E o) (hQ : ∀ a s, Q a s → Q' a s) (hE : ∀ e s, E e s → E' e s) :
    Ends Q' E' o := by
  obtain ⟨r, s⟩ := o
  cases r with
  | ok a => exact hQ a s h
  | error e => exact hE e s h

theorem Ends.congr (h : Ends Q E o) (ho : o = o') : Ends Q E o' := ho ▸ h

theorem Ends.ok (h : Ends Q (fun _ _ => False) o) : ∃ a s, o = (.ok a, s) ∧ Q a s := by
  obtain ⟨r, s⟩ := o
  cases r with
  | ok a => exact ⟨a, s, rfl, h⟩
  | error e => exact h.elim

theorem Ends.and (h : Ends Q E o) (h' : Ends Q' E' o) :
    Ends (fun a s => Q a s ∧ Q' a s) (fun e s => E e s ∧ E' e s) o := by
  obtain ⟨r, s⟩ := o
  cases r <;> exact ⟨h, h'⟩

theorem Ends.state (h : Ends (fun _ => P) (fun _ => P) o) : P o.2 := by
  obtain ⟨r, s⟩ := o
  cases r <;> exact h

theorem ends_of_state (h : P o.2) : Ends (fun _ => P) (fun _ => P) o := by
  obtain ⟨r, s⟩ := o
  cases r <;> exact h

end ends

variable {P P' : σ → Prop} {Q Q' : α → σ → Prop} {E E' : Error → σ → Prop}

theorem Triple.imp {x : Act σ α} (h : Triple P x Q E) (hP : ∀ s, P' s → P s)
    (hQ : ∀ a s, Q a s → Q' a s) (hE : ∀ e s, E e s → E' e s) : Triple P' x Q' E' :=
  fun s hs => (h s (hP s hs)).imp hQ hE

theorem triple_pure {a : α} (h : ∀ s, P s → Q a s) : Triple P (pure a : Act σ α) Q E :=
  fun s hs => h s hs

theorem Triple.starting {x : Act σ α} {s : σ} (h : Triple P x Q E) (hs : P s) :
    Triple (fun t => t = s) x Q E := by
  rintro _ rfl
  exact h _ hs

theorem triple_return {a : α} {s : σ} (h : Q a s) :
    Triple (fun t => t = s) (pure a : Act σ α) Q E := by
  rintro _ rfl
  exact h

theorem triple_fail {e : Error} (h : ∀ s, P s → E e s) : Triple P (fail e : Act σ α) Q E :=
  fun s hs => h s hs

theorem triple_ofExcept {r : Except Error α} (hQ : ∀ a s, r = .ok a → P s → Q a s)
    (hE : ∀ e s, r = .error e → P s → E e s) : Triple P (ofExcept r : Act σ α) Q E := by
  intro s hs
  cases r with
  | ok a => exact hQ a s rfl hs
  | error e => exact hE e s rfl hs

theorem triple_modify {f : σ → σ} {Q : Unit → σ → Prop} (h : ∀ s, P s → Q () (f s)) :
    Triple P (modify f) Q E :=
  fun s hs => h s hs

theorem Triple.bind {x : Act σ α} {f : α → Act σ β} {R : β → σ → Prop} (hx : Triple P x Q E)
    (hf : ∀ a, Triple (Q a) (f a) R E) : Triple P (x >>= f) R E := by
  intro s hs
  have h := hx s hs
  rw [bind_apply]
  rcases hxs : x s with ⟨r, t⟩
  rw [hxs] at h
  cases r with
  | ok a => exact hf a t h
  | error e => exact h

theorem triple_get_bind {f : σ → Act σ β} {R : β → σ → Prop}
    (h : ∀ s, P s → Triple (fun t => t = s) (f s) R E) : Triple P (get >>= f) R E :=
  fun s hs => h s hs s rfl

theorem Triple.attempt {x : Act σ α} (h : Triple P x Q E) :
    Triple P (attempt x) (fun r s => Ends Q E (r, s)) E' := by
  intro s hs
  have hx := h s hs
  rcases hxs : x s with ⟨r, t⟩
  rw [hxs] at hx
  simpa [Act.attempt, hxs] using hx

theorem Triple.first {P : μ × σ → Prop} {x : Act μ α} {Q : α → μ × σ → Prop}
    {E : Error → μ × σ → Prop}
    (h : ∀ s, Triple (fun m => P (m, s)) x (fun a m => Q a (m, s)) (fun e m => E e (m, s))) :
    Triple P (first x) Q E := by
  rintro ⟨m, s⟩ hs
  have hx := h s m hs
  rcases hxs : x m with ⟨r, m'⟩
  rw [hxs] at hx
  cases r <;> simpa [Act.first, hxs] using hx

theorem Triple.second {P : μ × σ → Prop} {x : Act σ α} {Q : α → μ × σ → Prop}
    {E : Error → μ × σ → Prop}
    (h : ∀ m, Triple (fun s => P (m, s)) x (fun a s => Q a (m, s)) (fun e s => E e (m, s))) :
    Triple P (second x) Q E := by
  rintro ⟨m, s⟩ hs
  have hx := h m s hs
  rcases hxs : x s with ⟨r, s'⟩
  rw [hxs] at hx
  cases r <;> simpa [Act.second, hxs] using hx

theorem ends_second_first {x : Act σ α} {f : α → μ → μ} {c : μ} {s : σ}
    {T : Unit → μ × σ → Prop} {E : Error → μ × σ → Prop}
    (h : Ends (fun a t => T () (f a c, t)) (fun e t => E e (c, t)) (x s)) :
    Ends T E ((second x >>= fun a => first (modify (f a))) (c, s)) := by
  have hx : Triple (fun p => p = (c, s)) (second x)
      (fun a p => p.1 = c ∧ T () (f a c, p.2)) (fun e p => E e p) := by
    refine Triple.second fun m t ht => ?_
    obtain ⟨rfl, rfl⟩ := Prod.mk.inj ht
    exact h.imp (fun _ _ ha => ⟨rfl, ha⟩) fun _ _ he => he
  refine Triple.bind hx (fun a => ?_) (c, s) rfl
  refine Triple.first fun t => triple_modify ?_
  rintro m ⟨rfl, ha⟩
  exact ha

theorem triple_forEach {f : α → Act σ Unit} {xs : List α}
    (h : ∀ x ∈ xs, Triple P (f x) (fun _ => P) E) : Triple P (forEach f xs) (fun _ => P) E := by
  induction xs with
  | nil => exact triple_pure fun _ hs => hs
  | cons x rest ih =>
      refine (h x (List.mem_cons_self ..)).bind fun _ => ?_
      exact ih fun y hy => h y (List.mem_cons_of_mem _ hy)

theorem triple_forEach_rest {f : α → Act σ Unit} {J : List α → σ → Prop} (xs : List α)
    (h : ∀ x rest, Triple (J (x :: rest)) (f x) (fun _ => J rest) E) :
    Triple (J xs) (forEach f xs) (fun _ => J []) E := by
  induction xs with
  | nil => exact triple_pure fun _ hs => hs
  | cons x rest ih => exact (h x rest).bind fun _ => ih

theorem forEach_error {f : α → Act σ Unit} {xs : List α} {s t : σ} {e : Error}
    (h : forEach f xs s = (.error e, t)) : ∃ done x rest u, xs = done ++ x :: rest ∧
      forEach f done s = (.ok (), u) ∧ forEach f [x] u = (.error e, t) := by
  induction xs generalizing s with
  | nil => cases h
  | cons x xs ih =>
      rw [forEach, bind_apply] at h
      rcases hx : f x s with ⟨_ | _, u⟩
      · rw [hx] at h
        refine ⟨[], x, xs, s, rfl, rfl, ?_⟩
        rw [forEach, bind_apply, hx]
        exact h
      · rw [hx] at h
        obtain ⟨done, y, rest, v, rfl, hdone, hy⟩ := ih h
        refine ⟨x :: done, y, rest, v, rfl, ?_, hy⟩
        rw [forEach, bind_apply, hx]
        exact hdone

theorem forEach_same {f : α → Act σ Unit} {xs : List α} {s : σ}
    (h : ∀ x ∈ xs, f x s = (.ok (), s)) : forEach f xs s = (.ok (), s) := by
  induction xs with
  | nil => rfl
  | cons x rest ih =>
      rw [forEach, bind_apply, h x (List.mem_cons_self ..)]
      exact ih fun y hy => h y (List.mem_cons_of_mem _ hy)

theorem triple_forAll {f : α → Act σ Unit} {J : List α → σ → Prop} (xs : List α)
    (h : ∀ x rest, Triple (J (x :: rest)) (f x) (fun _ => J rest) (fun _ => J rest)) :
    Triple (J xs) (forAll f xs) (fun _ => J []) (fun _ => J []) := by
  induction xs with
  | nil => exact triple_pure fun _ hs => hs
  | cons x rest ih =>
      intro s hs
      have hx : J rest (f x s).2 := (h x rest s hs).state
      exact ends_of_state (ih _ hx).state

theorem triple_forAll_ok {f : α → Act σ Unit} {J : List α → σ → Prop} (xs : List α)
    (h : ∀ x rest, Triple (J (x :: rest)) (f x) (fun _ => J rest) fun _ _ => False) :
    Triple (J xs) (forAll f xs) (fun _ => J []) fun _ _ => False := by
  induction xs with
  | nil => exact triple_pure fun _ hs => hs
  | cons x rest ih =>
      intro s hs
      obtain ⟨_, t, hx, ht⟩ := (h x rest s hs).ok
      simp only [forAll, hx]
      exact ih t ht

theorem keeps_forAll {f : α → Act σ Unit} {xs : List α} (h : ∀ x ∈ xs, Keeps P (f x)) :
    Keeps P (forAll f xs) := by
  induction xs with
  | nil => exact triple_pure fun _ hs => hs
  | cons x rest ih =>
      intro s hs
      have hx : P (f x s).2 := (h x (List.mem_cons_self ..) s hs).state
      have hrest := ih fun y hy => h y (List.mem_cons_of_mem _ hy)
      exact ends_of_state (hrest _ hx).state

end EventContexts.Act
