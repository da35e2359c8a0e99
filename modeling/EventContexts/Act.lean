import EventContexts.Error

namespace EventContexts

def Act (σ α : Type) : Type := σ → Except Error α × σ

namespace Act

variable {σ μ α β : Type}

instance : Monad (Act σ) where
  pure a := fun s => (.ok a, s)
  bind x f := fun s =>
    match x s with
    | (.ok a, s) => f a s
    | (.error e, s) => (.error e, s)

theorem pure_apply (a : α) (s : σ) : (pure a : Act σ α) s = (.ok a, s) := rfl

theorem bind_apply (x : Act σ α) (f : α → Act σ β) (s : σ) :
    (x >>= f) s = match x s with
      | (.ok a, s) => f a s
      | (.error e, s) => (.error e, s) := rfl

def fail (e : Error) : Act σ α := fun s => (.error e, s)

def ofExcept (r : Except Error α) : Act σ α := fun s => (r, s)

def get : Act σ σ := fun s => (.ok s, s)

def modify (f : σ → σ) : Act σ Unit := fun s => (.ok (), f s)

def attempt (x : Act σ α) : Act σ (Except Error α) := fun s =>
  let (r, s) := x s
  (.ok r, s)

def first (x : Act μ α) : Act (μ × σ) α := fun (m, s) =>
  let (r, m) := x m
  (r, (m, s))

def second (x : Act σ α) : Act (μ × σ) α := fun (m, s) =>
  let (r, s) := x s
  (r, (m, s))

def forEach (f : α → Act σ Unit) : List α → Act σ Unit
  | [] => pure ()
  | x :: rest => do
      f x
      forEach f rest

theorem forEach_singleton {f : α → Act σ Unit} {x : α} {s : σ} : forEach f [x] s = f x s := by
  rw [forEach, bind_apply]
  rcases f x s with ⟨_ | _, t⟩ <;> rfl

/-- Runs every step in order, and fails at the end with the first failure. -/
def forAll (f : α → Act σ Unit) : List α → Act σ Unit
  | [] => pure ()
  | x :: rest => fun s =>
      let (r, s) := f x s
      let (r', s) := forAll f rest s
      (match r with
        | .error e => .error e
        | .ok () => r', s)

end Act

end EventContexts
