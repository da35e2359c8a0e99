import EventContexts.Proofs.Controller.Category
import EventContexts.Proofs.Controller.Episode
import EventContexts.Proofs.Controller.Hash
import EventContexts.Proofs.Controller.Keyed
import EventContexts.Proofs.Controller.Temporal

namespace EventContexts

open Act

variable {σ μ α : Type} {life : Lifecycle σ} {l : Level} {e : Event}
  {R : Request → Prop} {I : Brood → σ → Prop} {a : Activation}

namespace Scheme

theorem lift_triple {wrap : μ → Scheme} {x : Act (μ × σ) α} {c : μ} {s : σ} {t : Scheme}
    {Q : α → Scheme × σ → Prop} {E : Error → Scheme × σ → Prop}
    (h : Ends (fun a p => Q a (wrap p.1, p.2)) (fun e p => E e (wrap p.1, p.2)) (x (c, s))) :
    Triple (fun p => p = (t, s)) (lift wrap x c) Q E := by
  rintro _ rfl
  rcases hx : x (c, s) with ⟨r, c', s'⟩
  rw [hx] at h
  cases r <;> simpa [lift, hx] using h

theorem sound_ofLevel (l : Level) : (ofLevel l).Sound := by
  cases l <;> intro k hk <;> simp [children] at hk

theorem children_ofLevel (l : Level) : (ofLevel l).children = OrderedMap.empty := by
  cases l <;> rfl

theorem tended_ofLevel {s : σ} (hI : I OrderedMap.empty s) : Tended l I (ofLevel l) s :=
  ⟨level_ofLevel l, sound_ofLevel l, by rw [children_ofLevel]; exact hI⟩

@[simp] theorem level_forget {s : Scheme} {h : Handle} : (s.forget h).level = s.level := by
  cases s with
  | temporal c =>
      simp only [forget]
      repeat' split
      all_goals rfl
  | _ => rfl

theorem entries_forget {s : Scheme} {h : Handle} :
    (s.forget h).children.entries = s.children.entries.filter fun p => p.2 ≠ h := by
  cases s with
  | temporal c =>
      rcases hc : c.child with _ | ⟨k, g⟩
      · simp [forget, children, hc]
      · by_cases hg : g = h <;> simp [forget, children, hc, hg]
  | _ => rfl

theorem Sound.forget {s : Scheme} (hs : s.Sound) (h : Handle) : (s.forget h).Sound := by
  have hsub : ∀ k ∈ (s.forget h).children.keys, k ∈ s.children.keys := by
    intro k hk
    obtain ⟨p, hp, rfl⟩ := List.mem_map.1 hk
    rw [entries_forget] at hp
    exact List.mem_map_of_mem (List.mem_filter.1 hp).1
  cases s with
  | temporal c =>
      have hlevel : (Scheme.temporal c).forget h = .temporal c ∨
          (Scheme.temporal c).forget h = .temporal { c with child := none, finished := true } := by
        simp only [Scheme.forget]
        repeat' split
        all_goals simp
      rcases hlevel with heq | heq
      · rw [heq]
        exact hs
      · rw [heq]
        intro k hk
        simp [children] at hk
  | _ => exact fun k hk => hs k (hsub k hk)

theorem keeps_activate (hlife : life.Honours R I) (hl : l.flaw? = none)
    (hR : ∀ r, r.Answers l a → R r) :
    Keeps (fun p => Tended l I p.1 p.2) (activate life a) := by
  apply triple_get_bind
  rintro ⟨scheme, s⟩ ht
  cases scheme with
  | keyed c => exact lift_triple (KeyedController.keeps_activate hlife hR _ ht)
  | category c =>
      have hlevel : l = .category c.level := ht.level.symm
      subst hlevel
      exact lift_triple (CategoryController.keeps_activate hlife hl hR _ ht)
  | hash c => exact lift_triple (HashController.keeps_activate hlife hR _ ht)
  | episode c =>
      exact lift_triple (EpisodeController.keeps_activate hlife ⟨_, ht.level.symm⟩ hR _ ht)
  | temporal c =>
      exact lift_triple (TemporalController.keeps_activate hlife ⟨_, ht.level.symm⟩ hR _ ht)

theorem route_triple {J : Option Key → Brood → σ → Prop} (hlife : life.Honours R (J none))
    (hl : l.flaw? = none) (hR : ∀ r : Request, r.Plain → R r) (hdel : life.Delivers l e J) :
    Triple (fun p => Tended l (J none) p.1 p.2) (route life e)
      (fun targets p => Routed l e J targets p.1 p.2) (fun _ p => Tended l (J none) p.1 p.2) := by
  apply triple_get_bind
  rintro ⟨scheme, s⟩ ht
  cases scheme with
  | keyed c => exact lift_triple (KeyedController.route_triple hdel _ ht)
  | category c =>
      have hlevel : l = .category c.level := ht.level.symm
      subst hlevel
      exact triple_return ⟨none, ht, CategoryController.targets_spec hl, by simp⟩
  | hash c => exact lift_triple (HashController.route_triple hdel _ ht)
  | episode c => exact lift_triple (EpisodeController.route_triple hlife hR hdel _ ht)
  | temporal c =>
      have hlevel : l = .temporal c.level := ht.level.symm
      subst hlevel
      exact triple_return ⟨none, ht, TemporalController.targets_child, by simp⟩

theorem keeps_tick (hlife : life.Honours R I) (hR : ∀ r : Request, r.Plain → R r) (now : Int64) :
    Keeps (fun p => Tended l I p.1 p.2) (tick life now) := by
  apply triple_get_bind
  rintro ⟨scheme, s⟩ ht
  cases scheme with
  | episode c => exact lift_triple (EpisodeController.keeps_tick hlife hR now _ ht)
  | temporal c =>
      refine lift_triple (TemporalController.keeps_sync hlife (fun r hrt hrr => ?_) _ ht)
      exact hR r ⟨hrt, by rw [hrr]; rfl⟩
  | _ => exact triple_return ht

theorem keeps_restrict (hlife : life.Honours R I) (hR : ∀ r : Request, r.Plain → R r)
    (ranges : List BucketRange) :
    Keeps (fun p => Tended l I p.1 p.2) (restrict life ranges) := by
  apply triple_get_bind
  rintro ⟨scheme, s⟩ ht
  cases scheme with
  | hash c => exact lift_triple (HashController.keeps_restrict hlife hR ranges _ ht)
  | _ =>
      apply triple_fail
      rintro _ rfl
      exact ht

end Scheme

structure Post where
  id : ControllerId
  path : UInt32
  nesting : Nat
  level : Level

namespace Controller

def post (c : Controller) : Post := ⟨c.id, c.path, c.nesting, c.level⟩

structure Manned (post : Post) (I : Brood → σ → Prop) (c : Controller) (s : σ) : Prop where
  stands : c.post = post
  tended : Tended post.level I c.scheme s

theorem run_ends {x : Act (Scheme × σ) α} {c : Controller} {s : σ}
    {T : α → Controller × σ → Prop} {E : Error → Controller × σ → Prop}
    (h : Ends (fun a p => T a ({ c with scheme := p.1 }, p.2))
      (fun e p => E e ({ c with scheme := p.1 }, p.2)) (x (c.scheme, s))) :
    Ends T E (run x (c, s)) := by
  rcases hx : x (c.scheme, s) with ⟨r, scheme, t⟩
  rw [hx] at h
  simp only [run, hx]
  cases r <;> exact h

theorem run_triple {post : Post} {x : Act (Scheme × σ) α} {P : Scheme × σ → Prop}
    {Q : α → Scheme × σ → Prop} {E : Error → Scheme × σ → Prop} (h : Triple P x Q E)
    (hQ : ∀ a p, Q a p → p.1.level = post.level) (hE : ∀ e p, E e p → p.1.level = post.level) :
    Triple (fun p => p.1.post = post ∧ P (p.1.scheme, p.2)) (run x)
      (fun a p => p.1.post = post ∧ Q a (p.1.scheme, p.2))
      (fun e p => p.1.post = post ∧ E e (p.1.scheme, p.2)) := by
  rintro ⟨c, s⟩ ⟨rfl, hP⟩
  have hx := h _ hP
  rcases hxs : x (c.scheme, s) with ⟨r, scheme, s'⟩
  rw [hxs] at hx
  cases r with
  | ok a =>
      simp only [run, hxs]
      exact ⟨congrArg (Post.mk c.id c.path c.nesting) (hQ _ _ hx), hx⟩
  | error e =>
      simp only [run, hxs]
      exact ⟨congrArg (Post.mk c.id c.path c.nesting) (hE _ _ hx), hx⟩

theorem keeps_run {post : Post} {x : Act (Scheme × σ) α}
    (h : Keeps (fun p => Tended post.level I p.1 p.2) x) :
    Keeps (fun p => Manned post I p.1 p.2) (run x) :=
  (run_triple h (fun _ _ ht => ht.level) fun _ _ ht => ht.level).imp
    (fun _ hm => ⟨hm.stands, hm.tended⟩) (fun _ _ hm => ⟨hm.1, hm.2⟩) fun _ _ hm => ⟨hm.1, hm.2⟩

variable {post : Post}

theorem keeps_activate (hlife : life.Honours R I) (hl : post.level.flaw? = none)
    (hR : ∀ r, r.Answers post.level a → R r) :
    Keeps (fun p => Manned post I p.1 p.2) (activate life a) :=
  keeps_run (Scheme.keeps_activate hlife hl hR)

theorem keeps_tick (hlife : life.Honours R I) (hR : ∀ r : Request, r.Plain → R r) (now : Int64) :
    Keeps (fun p => Manned post I p.1 p.2) (tick life now) :=
  keeps_run (Scheme.keeps_tick hlife hR now)

theorem keeps_restrict (hlife : life.Honours R I) (hR : ∀ r : Request, r.Plain → R r)
    (ranges : List BucketRange) :
    Keeps (fun p => Manned post I p.1 p.2) (restrict life ranges) :=
  keeps_run (Scheme.keeps_restrict hlife hR ranges)

theorem route_triple {J : Option Key → Brood → σ → Prop} (hlife : life.Honours R (J none))
    (hl : post.level.flaw? = none) (hR : ∀ r : Request, r.Plain → R r)
    (hdel : life.Delivers post.level e J) :
    Triple (fun p => Manned post (J none) p.1 p.2) (route life e)
      (fun targets p => p.1.post = post ∧ Routed post.level e J targets p.1.scheme p.2)
      (fun _ p => Manned post (J none) p.1 p.2) := by
  refine (run_triple (Scheme.route_triple hlife hl hR hdel) ?_ fun _ _ ht => ht.level).imp
    (fun _ hm => ⟨hm.stands, hm.tended⟩) (fun _ _ h => h) fun _ _ hm => ⟨hm.1, hm.2⟩
  intro targets p hr
  obtain ⟨fresh, ht, -⟩ := hr.fresh
  exact ht.level

theorem keeps_route (hlife : life.Honours R I) (hl : post.level.flaw? = none)
    (hR : ∀ r : Request, R r) : Keeps (fun p => Manned post I p.1 p.2) (route life e) :=
  (route_triple hlife hl (fun r _ => hR r) (hlife.delivers fun r _ => hR r)).imp (fun _ h => h)
    (fun _ _ h => ⟨h.1, h.2.tended⟩) fun _ _ h => h

end Controller

end EventContexts
