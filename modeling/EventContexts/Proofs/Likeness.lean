import EventContexts.Controller
import Mathlib.Data.List.Forall2
/-!
Steps that cannot tell two states apart. A controller sees of a state only what its starts and stops
answer, so where these answer alike in both states, all its decisions are the same.
-/

namespace EventContexts

namespace Act

variable {σ μ α β : Type}

structure Alike (R : σ → σ → Prop) (x y : Act σ α) : Prop where
  run {s t : σ} : R s t → (x s).1 = (y t).1 ∧ R (x s).2 (y t).2

abbrev Beside (R : σ → σ → Prop) (p q : μ × σ) : Prop := p.1 = q.1 ∧ R p.2 q.2

variable {R : σ → σ → Prop}

@[elab_as_elim]
theorem Alike.elim {x y : Act σ α} {s t : σ}
    {motive : Except Error α × σ → Except Error α × σ → Prop} (h : Alike R x y) (hst : R s t)
    (ok : ∀ a s' t', R s' t' → motive (.ok a, s') (.ok a, t'))
    (error : ∀ e s' t', R s' t' → motive (.error e, s') (.error e, t')) : motive (x s) (y t) := by
  obtain ⟨hresult, hstate⟩ := h.run hst
  rcases hx : x s with ⟨r, s'⟩
  rcases hy : y t with ⟨r', t'⟩
  rw [hx, hy] at hresult hstate
  obtain rfl : r = r' := hresult
  cases r with
  | ok a => exact ok a s' t' hstate
  | error e => exact error e s' t' hstate

theorem alike_pure {a : α} : Alike R (pure a) (pure a) := ⟨fun h => ⟨rfl, h⟩⟩

theorem alike_fail {e : Error} : Alike R (fail e : Act σ α) (fail e) := ⟨fun h => ⟨rfl, h⟩⟩

theorem alike_ofExcept {r : Except Error α} : Alike R (ofExcept r) (ofExcept r) :=
  ⟨fun h => ⟨rfl, h⟩⟩

theorem Alike.bind {x y : Act σ α} {f g : α → Act σ β} (hx : Alike R x y)
    (hf : ∀ a, Alike R (f a) (g a)) : Alike R (x >>= f) (y >>= g) := by
  refine ⟨fun {s t} hst => ?_⟩
  rw [bind_apply, bind_apply]
  refine hx.elim hst (fun a s' t' hst' => (hf a).run hst') fun e s' t' hst' => ⟨rfl, hst'⟩

theorem Alike.attempt {x y : Act σ α} (h : Alike R x y) : Alike R (attempt x) (attempt y) := by
  refine ⟨fun hst => ?_⟩
  obtain ⟨hresult, hstate⟩ := h.run hst
  exact ⟨congrArg Except.ok hresult, hstate⟩

theorem alike_get_bind {f g : μ × σ → Act (μ × σ) β}
    (h : ∀ m s t, Alike (Beside R) (f (m, s)) (g (m, t))) :
    Alike (Beside R) (get >>= f) (get >>= g) := by
  constructor
  rintro ⟨m, s⟩ ⟨_, t⟩ ⟨rfl, hst⟩
  exact (h m s t).run ⟨rfl, hst⟩

theorem alike_first {x : Act μ α} : Alike (Beside R) (first x) (first x) := by
  constructor
  rintro ⟨m, s⟩ ⟨_, t⟩ ⟨rfl, hst⟩
  exact ⟨rfl, rfl, hst⟩

theorem Alike.second {x y : Act σ α} (h : Alike R x y) :
    Alike (Beside (μ := μ) R) (second x) (second y) := by
  constructor
  rintro ⟨m, s⟩ ⟨_, t⟩ ⟨rfl, hst⟩
  obtain ⟨hresult, hstate⟩ := h.run hst
  exact ⟨hresult, rfl, hstate⟩

theorem alike_forAll₂ {f : α → Act σ Unit} {g : β → Act σ Unit} {xs : List α} {ys : List β}
    (h : List.Forall₂ (fun x y => Alike R (f x) (g y)) xs ys) :
    Alike R (forAll f xs) (forAll g ys) := by
  induction h with
  | nil => exact alike_pure
  | cons hx _ ih =>
      refine ⟨fun hst => ?_⟩
      obtain ⟨hresult, hstate⟩ := hx.run hst
      obtain ⟨hresults, hstates⟩ := ih.run hstate
      refine ⟨?_, hstates⟩
      simp only [forAll, hresult, hresults]

theorem alike_forEach {f g : α → Act σ Unit} (h : ∀ a, Alike R (f a) (g a)) (xs : List α) :
    Alike R (forEach f xs) (forEach g xs) := by
  induction xs with
  | nil => exact alike_pure
  | cons x rest ih => exact (h x).bind fun _ => ih

theorem alike_forAll {f g : α → Act σ Unit} (h : ∀ a, Alike R (f a) (g a)) (xs : List α) :
    Alike R (forAll f xs) (forAll g xs) :=
  alike_forAll₂ (List.forall₂_same.2 fun x _ => h x)

end Act

open Act

variable {σ : Type} {R : σ → σ → Prop}

/-- Starts and stops cannot tell related states apart. -/
structure Lifecycle.Alike (R : σ → σ → Prop) (life life' : Lifecycle σ) : Prop where
  start (r : Request) : Act.Alike R (life.start r) (life'.start r)
  stop (h : Handle) : Act.Alike R (life.stop h) (life'.stop h)

variable {life life' : Lifecycle σ} {a : Activation} {e : Event}

namespace KeyedController

theorem alike_start (hlife : life.Alike R life') (key : Key) (trigger : Option Event)
    (recovered : Option Assignment) :
    Alike (Beside R) (start life key trigger recovered) (start life' key trigger recovered) :=
  alike_get_bind fun _ _ _ => (hlife.start _).second.bind fun _ => alike_first

theorem alike_route (hlife : life.Alike R life') :
    Alike (Beside R) (route life e) (route life' e) := by
  refine alike_get_bind fun c _ _ => ?_
  cases hkey : c.level.keyFor? e with
  | none => simpa only [hkey] using alike_pure
  | some key =>
      simp only [hkey]
      split
      · exact alike_pure
      · exact (alike_start hlife ..).bind fun _ => alike_pure

theorem alike_recover (hlife : life.Alike R life') (x : Assignment) :
    Alike (Beside R) (recover life x) (recover life' x) := by
  refine alike_get_bind fun c _ _ => ?_
  simp only
  split
  · split
    · exact alike_pure
    · exact alike_start hlife ..
  · exact alike_pure

theorem alike_activate (hlife : life.Alike R life') :
    Alike (Beside R) (activate life a) (activate life' a) := by
  refine (alike_forEach (alike_recover hlife) _).bind fun _ => ?_
  split
  · exact (alike_route hlife).bind fun _ => alike_pure
  · exact alike_pure

end KeyedController

namespace CategoryController

theorem alike_startItem (hlife : life.Alike R life') (item : CategoryItem × Nat) :
    Alike (Beside R) (startItem life a item) (startItem life' a item) := by
  refine alike_get_bind fun c _ _ => ?_
  simp only
  split
  · exact alike_pure
  · exact (hlife.start _).second.bind fun _ => alike_first

theorem alike_activate (hlife : life.Alike R life') :
    Alike (Beside R) (activate life a) (activate life' a) :=
  alike_get_bind fun _ _ _ => alike_forEach (alike_startItem hlife) _

end CategoryController

namespace HashController

theorem alike_start (hlife : life.Alike R life') (bucket : Int64) (trigger : Option Event)
    (recovered : Option Assignment) :
    Alike (Beside R) (start life bucket trigger recovered)
      (start life' bucket trigger recovered) :=
  (hlife.start _).second.bind fun _ => alike_first

theorem alike_preallocate (hlife : life.Alike R life') (count first : Nat) :
    Alike (Beside R) (preallocate life a count first) (preallocate life' a count first) := by
  induction count generalizing first with
  | zero => exact alike_pure
  | succ count ih =>
      refine alike_get_bind fun c _ _ => ?_
      simp only
      split
      · exact (alike_start hlife ..).bind fun _ => ih _
      · exact alike_pure.bind fun _ => ih _

theorem alike_preallocateAll (hlife : life.Alike R life') :
    Alike (Beside R) (preallocateAll life a) (preallocateAll life' a) :=
  alike_get_bind fun _ _ _ => alike_preallocate hlife ..

theorem alike_route (hlife : life.Alike R life') :
    Alike (Beside R) (route life e) (route life' e) := by
  refine alike_get_bind fun c _ _ => ?_
  simp only
  split
  · exact alike_pure
  · split
    · split
      · exact alike_pure
      · exact (alike_start hlife ..).bind fun _ => alike_pure
    · exact alike_pure

theorem alike_recover (hlife : life.Alike R life') (x : Assignment) :
    Alike (Beside R) (recover life x) (recover life' x) := by
  refine alike_get_bind fun c _ _ => ?_
  simp only
  split
  · split
    · exact alike_start hlife ..
    · exact alike_pure
  · exact alike_pure

theorem alike_activate (hlife : life.Alike R life') :
    Alike (Beside R) (activate life a) (activate life' a) := by
  refine alike_get_bind fun c _ _ => ?_
  simp only
  split
  · exact alike_preallocateAll hlife
  · refine (alike_forEach (alike_recover hlife) _).bind fun _ => ?_
    split
    · exact (alike_route hlife).bind fun _ => alike_pure
    · exact alike_pure

theorem alike_restrict (hlife : life.Alike R life') (ranges : List BucketRange) :
    Alike (Beside R) (restrict life ranges) (restrict life' ranges) := by
  refine alike_first.bind fun _ => alike_get_bind fun c _ _ => ?_
  have hend (child : Key × Handle) :
      Alike (Beside R) (endChild life child) (endChild life' child) :=
    alike_first.bind fun _ => (hlife.stop _).second
  refine (alike_forAll hend _).attempt.bind fun _ => ?_
  split
  · exact (alike_preallocateAll hlife).bind fun _ => alike_ofExcept
  · exact alike_pure.bind fun _ => alike_ofExcept

end HashController

namespace EpisodeController

theorem alike_startEpisode (hlife : life.Alike R life') (start : Int64)
    (initiator : Option Event) :
    Alike (Beside R) (startEpisode life start initiator) (startEpisode life' start initiator) := by
  refine alike_get_bind fun c _ _ => alike_ofExcept.bind fun _ => ?_
  exact (hlife.start _).second.bind fun _ => alike_first

theorem alike_endEpisodes (hlife : life.Alike R life') (children : List (Key × Handle)) :
    Alike (Beside R) (forAll (endEpisode life) children) (forAll (endEpisode life') children) :=
  alike_forAll (fun _ => alike_first.bind fun _ => (hlife.stop _).second) children

theorem alike_restartIfNow (hlife : life.Alike R life') :
    Alike (Beside R) (restartIfNow life) (restartIfNow life') := by
  refine alike_get_bind fun c _ _ => ?_
  simp only
  split
  · exact alike_startEpisode hlife ..
  · exact alike_pure

theorem alike_activate (hlife : life.Alike R life') :
    Alike (Beside R) (activate life a) (activate life' a) := by
  refine alike_first.bind fun _ => alike_get_bind fun c _ _ => ?_
  simp only
  split
  · exact alike_startEpisode hlife ..
  · split
    · exact alike_startEpisode hlife ..
    · exact alike_pure
  · exact alike_pure

theorem alike_close (hlife : life.Alike R life') :
    Alike (Beside R) (close life e) (close life' e) := by
  refine alike_get_bind fun c _ _ => ?_
  simp only
  split
  · exact (alike_endEpisodes hlife _).bind fun _ => alike_restartIfNow hlife
  · exact alike_pure

theorem alike_receive (hlife : life.Alike R life') :
    Alike (Beside R) (receive life e) (receive life' e) := by
  refine alike_get_bind fun c _ _ => ?_
  simp only
  split
  · exact (alike_startEpisode hlife ..).bind fun _ => alike_pure
  · exact alike_pure

theorem alike_route (hlife : life.Alike R life') :
    Alike (Beside R) (route life e) (route life' e) :=
  (alike_close hlife).bind fun _ => alike_receive hlife

theorem alike_tick (hlife : life.Alike R life') (now : Int64) :
    Alike (Beside R) (tick life now) (tick life' now) := by
  refine alike_first.bind fun _ => alike_get_bind fun c _ _ => ?_
  simp only
  split
  · exact alike_pure
  · refine (alike_endEpisodes hlife _).bind fun _ => ?_
    split
    · exact alike_pure
    · exact alike_restartIfNow hlife

end EpisodeController

namespace TemporalController

theorem alike_sync (hlife : life.Alike R life') (now : Int64) (trigger : Option Event) :
    Alike (Beside R) (sync life now trigger) (sync life' now trigger) := by
  refine alike_get_bind fun c _ _ => ?_
  simp only
  split
  · refine alike_get_bind fun c _ _ => alike_first.bind fun _ => ?_
    split
    · exact (hlife.stop _).second
    · exact alike_pure
  · split
    · exact alike_first.bind fun _ => (hlife.start _).second.bind fun _ => alike_first
    · exact alike_pure

theorem alike_activate (hlife : life.Alike R life') :
    Alike (Beside R) (activate life a) (activate life' a) :=
  alike_first.bind fun _ => alike_sync hlife ..

end TemporalController

namespace Scheme

variable {μ α : Type}

theorem alike_lift {x y : Act (μ × σ) α} (h : Alike (Beside R) x y) (wrap : μ → Scheme) (c : μ) :
    Alike (Beside R) (lift wrap x c) (lift wrap y c) := by
  constructor
  rintro ⟨scheme, s⟩ ⟨_, t⟩ ⟨rfl, hst⟩
  obtain ⟨hresult, hscheme, hstate⟩ := h.run (s := (c, s)) (t := (c, t)) ⟨rfl, hst⟩
  exact ⟨hresult, congrArg wrap hscheme, hstate⟩

theorem alike_activate (hlife : life.Alike R life') :
    Alike (Beside R) (activate life a) (activate life' a) := by
  refine alike_get_bind fun scheme _ _ => ?_
  cases scheme with
  | keyed c => exact alike_lift (KeyedController.alike_activate hlife) ..
  | category c => exact alike_lift (CategoryController.alike_activate hlife) ..
  | hash c => exact alike_lift (HashController.alike_activate hlife) ..
  | episode c => exact alike_lift (EpisodeController.alike_activate hlife) ..
  | temporal c => exact alike_lift (TemporalController.alike_activate hlife) ..

theorem alike_route (hlife : life.Alike R life') :
    Alike (Beside R) (route life e) (route life' e) := by
  refine alike_get_bind fun scheme _ _ => ?_
  cases scheme with
  | keyed c => exact alike_lift (KeyedController.alike_route hlife) ..
  | category c => exact alike_pure
  | hash c => exact alike_lift (HashController.alike_route hlife) ..
  | episode c => exact alike_lift (EpisodeController.alike_route hlife) ..
  | temporal c => exact alike_pure

theorem alike_tick (hlife : life.Alike R life') (now : Int64) :
    Alike (Beside R) (tick life now) (tick life' now) := by
  refine alike_get_bind fun scheme _ _ => ?_
  cases scheme with
  | episode c => exact alike_lift (EpisodeController.alike_tick hlife now) ..
  | temporal c => exact alike_lift (TemporalController.alike_sync hlife now none) ..
  | _ => exact alike_pure

theorem alike_restrict (hlife : life.Alike R life') (ranges : List BucketRange) :
    Alike (Beside R) (restrict life ranges) (restrict life' ranges) := by
  refine alike_get_bind fun scheme _ _ => ?_
  cases scheme with
  | hash c => exact alike_lift (HashController.alike_restrict hlife ranges) ..
  | _ => exact alike_fail

end Scheme

namespace Controller

variable {α : Type}

theorem alike_run {x y : Act (Scheme × σ) α} (h : Alike (Beside R) x y) :
    Alike (Beside R) (run x) (run y) := by
  constructor
  rintro ⟨c, s⟩ ⟨_, t⟩ ⟨rfl, hst⟩
  obtain ⟨hresult, hscheme, hstate⟩ := h.run (s := (c.scheme, s)) (t := (c.scheme, t)) ⟨rfl, hst⟩
  exact ⟨hresult, congrArg (fun scheme => { c with scheme }) hscheme, hstate⟩

theorem alike_activate (hlife : life.Alike R life') :
    Alike (Beside R) (activate life a) (activate life' a) :=
  alike_run (Scheme.alike_activate hlife)

theorem alike_route (hlife : life.Alike R life') :
    Alike (Beside R) (route life e) (route life' e) :=
  alike_run (Scheme.alike_route hlife)

theorem alike_tick (hlife : life.Alike R life') (now : Int64) :
    Alike (Beside R) (tick life now) (tick life' now) :=
  alike_run (Scheme.alike_tick hlife now)

theorem alike_restrict (hlife : life.Alike R life') (ranges : List BucketRange) :
    Alike (Beside R) (restrict life ranges) (restrict life' ranges) :=
  alike_run (Scheme.alike_restrict hlife ranges)

end Controller

end EventContexts
