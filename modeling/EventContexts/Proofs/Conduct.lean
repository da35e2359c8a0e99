import EventContexts.Proofs.Controller
/-!
What controllers ask for: children of their level, in the places of their keys. Whatever such
starts and all stops keep, controllers keep.
-/

namespace EventContexts

open Act

variable {σ μ α : Type}

def Level.Places : Level → Key → UInt32 → Prop
  | .keyed _, key, _ => ∃ values, key = .keyed values
  | .category l, key, path => ∃ index item, l.items[index]? = some item ∧
      key = .category item.label ∧ path = UInt32.ofNat index
  | .hash _, key, path => ∃ bucket, key = .hash bucket ∧ path = HashController.pathOf bucket
  | .episode _, key, path => ∃ start number, key = .episode start number ∧
      path = UInt64.toUInt32 number
  | .temporal l, key, path => key = l.key ∧ path = 0

def Request.Suits (l : Level) (r : Request) : Prop := l.Places r.key r.path

@[simp] theorem Request.path_recovering (r : Request) (x : Option Assignment) :
    (r.recovering x).path = r.path := by
  cases x <;> rfl

theorem Request.suits_recovering {l : Level} {r : Request} {x : Option Assignment} :
    (r.recovering x).Suits l ↔ r.Suits l := by
  rw [Suits, Suits, key_recovering, path_recovering]

/-- Starts that are asked for with `P`, and all stops, keep `I`. -/
structure Lifecycle.Serves (life : Lifecycle σ) (P : Request → Prop) (I : σ → Prop) : Prop where
  start : ∀ {r : Request}, P r → Keeps I (life.start r)
  stop : ∀ h : Handle, Keeps I (life.stop h)

abbrev Asked : Type := List (Request × Except Error Handle)

def Asked.started (asked : Asked) : List Handle := asked.filterMap fun q => q.2.toOption

def Lifecycle.noting (life : Lifecycle σ) : Lifecycle (σ × Asked) where
  start r := fun (s, asked) =>
    let (outcome, s) := life.start r s
    (outcome, (s, asked ++ [(r, outcome)]))
  stop h := first (life.stop h)

variable {life : Lifecycle σ} {l : Level} {I : σ → Prop} {a : Activation} {e : Event}

theorem Lifecycle.noting_serves {P : Request → Prop} :
    life.noting.Serves P (fun s => ∀ q ∈ s.2, P q.1) where
  start {r} hr := by
    rintro ⟨s, asked⟩ hs
    refine ends_of_state fun q hq => ?_
    rcases List.mem_append.1 hq with hq | hq
    · exact hs q hq
    · obtain rfl := List.mem_singleton.1 hq
      exact hr
  stop h := Triple.first fun asked s hs => (ends_of_state hs)

theorem Lifecycle.Serves.mono {P P' : Request → Prop} (h : life.Serves P I)
    (hP : ∀ r, P' r → P r) : life.Serves P' I :=
  ⟨fun hr => h.start (hP _ hr), h.stop⟩

abbrev Both (C : μ → Prop) (I : σ → Prop) (p : μ × σ) : Prop := C p.1 ∧ I p.2

section

variable {C : μ → Prop}

theorem keeps_first_modify {f : μ → μ} (h : ∀ m, C m → C (f m)) :
    Keeps (Both C I) (first (modify f)) :=
  Triple.first fun _ => triple_modify fun m hm => ⟨h m hm.1, hm.2⟩

theorem keeps_second {x : Act σ α} (h : Keeps I x) : Keeps (Both C I) (second x) :=
  Triple.second fun _ s hs => (h s hs.2).imp (fun _ _ ht => ⟨hs.1, ht⟩) fun _ _ ht => ⟨hs.1, ht⟩

theorem keeps_get_bind {P : σ → Prop} {f : σ → Act σ α} (h : ∀ s, P s → Keeps P (f s)) :
    Keeps P (get >>= f) :=
  triple_get_bind fun s hs => (h s hs).starting hs

theorem keeps_pure {P : σ → Prop} {x : α} : Keeps P (pure x : Act σ α) :=
  triple_pure fun _ h => h

theorem Lifecycle.Serves.keeps_start {P : Request → Prop} {r : Request} {f : Handle → μ → μ}
    (hlife : life.Serves P I) (hr : P r) (hf : ∀ h m, C m → C (f h m)) :
    Keeps (Both C I) (second (life.start r) >>= fun h => first (modify (f h))) :=
  (keeps_second (hlife.start hr)).bind fun h => keeps_first_modify (hf h)

theorem Lifecycle.Serves.keeps_stop {P : Request → Prop} {h : Handle} {f : μ → μ}
    (hlife : life.Serves P I) (hf : ∀ m, C m → C (f m)) :
    Keeps (Both C I) (first (modify f) >>= fun _ => second (life.stop h)) :=
  (keeps_first_modify hf).bind fun _ => keeps_second (hlife.stop h)

end

namespace KeyedController

variable {kl : KeyedLevel}

abbrev Serving (kl : KeyedLevel) (I : σ → Prop) : KeyedController × σ → Prop :=
  Both (fun c => c.level = kl) I

theorem serves_start (hlife : life.Serves (Request.Suits (.keyed kl)) I) {values : List Value}
    {trigger : Option Event} {recovered : Option Assignment} :
    Keeps (Serving kl I) (start life (.keyed values) trigger recovered) := by
  refine keeps_get_bind fun p _ => ?_
  exact hlife.keeps_start (Request.suits_recovering.2 ⟨values, rfl⟩) fun _ _ h => h

theorem serves_route (hlife : life.Serves (Request.Suits (.keyed kl)) I) :
    Keeps (Serving kl I) (route life e) := by
  refine keeps_get_bind fun (c, _) _ => ?_
  cases hkey : c.level.keyFor? e with
  | none => simpa only [hkey] using keeps_pure
  | some key =>
      obtain ⟨values, rfl⟩ := keyFor?_eq_some hkey
      simp only [hkey]
      split
      · exact keeps_pure
      · exact (serves_start hlife).bind fun _ => keeps_pure

theorem serves_activate (hlife : life.Serves (Request.Suits (.keyed kl)) I) :
    Keeps (Serving kl I) (activate life a) := by
  refine Triple.bind (triple_forEach fun x _ => ?_) fun _ => ?_
  · refine keeps_get_bind fun (c, _) _ => ?_
    cases x.key with
    | keyed values =>
        simp only
        split
        · exact keeps_pure
        · exact serves_start hlife
    | _ => exact keeps_pure
  · split
    · exact (serves_route hlife).bind fun _ => keeps_pure
    · exact keeps_pure

end KeyedController

namespace CategoryController

variable {cl : CategoryLevel}

abbrev Serving (cl : CategoryLevel) (I : σ → Prop) : CategoryController × σ → Prop :=
  Both (fun c => c.level = cl) I

theorem serves_activate (hlife : life.Serves (Request.Suits (.category cl)) I) :
    Keeps (Serving cl I) (activate life a) := by
  refine keeps_get_bind fun (c, _) hc => triple_forEach fun (i, index) hi => ?_
  obtain rfl : c.level = cl := hc.1
  refine keeps_get_bind fun (c', _) hc' => ?_
  simp only
  split
  · exact keeps_pure
  · refine hlife.keeps_start (Request.suits_recovering.2 ?_) fun _ _ h => h
    exact ⟨index, i, List.mk_mem_zipIdx_iff_getElem?.1 hi, rfl, rfl⟩

end CategoryController

namespace HashController

variable {hl : HashLevel}

abbrev Serving (hl : HashLevel) (I : σ → Prop) : HashController × σ → Prop :=
  Both (fun c => c.level = hl) I

theorem serves_start (hlife : life.Serves (Request.Suits (.hash hl)) I) {bucket : Int64}
    {trigger : Option Event} {recovered : Option Assignment} :
    Keeps (Serving hl I) (start life bucket trigger recovered) :=
  hlife.keeps_start (Request.suits_recovering.2 ⟨bucket, rfl, rfl⟩) fun _ _ h => h

theorem serves_preallocate (hlife : life.Serves (Request.Suits (.hash hl)) I) {count first : Nat} :
    Keeps (Serving hl I) (preallocate life a count first) := by
  induction count generalizing first with
  | zero => exact keeps_pure
  | succ count ih =>
      refine keeps_get_bind fun (c, _) _ => ?_
      simp only
      split
      · exact (serves_start hlife).bind fun _ => ih
      · exact keeps_pure.bind fun _ => ih

theorem serves_preallocateAll (hlife : life.Serves (Request.Suits (.hash hl)) I) :
    Keeps (Serving hl I) (preallocateAll life a) :=
  keeps_get_bind fun _ _ => serves_preallocate hlife

theorem serves_route (hlife : life.Serves (Request.Suits (.hash hl)) I) :
    Keeps (Serving hl I) (route life e) := by
  refine keeps_get_bind fun (c, _) _ => ?_
  simp only
  split
  · exact keeps_pure
  · split
    · split
      · exact keeps_pure
      · exact (serves_start hlife).bind fun _ => keeps_pure
    · exact keeps_pure

theorem serves_recoverAll (hlife : life.Serves (Request.Suits (.hash hl)) I) :
    Keeps (Serving hl I) (recoverAll life a) := by
  refine Triple.bind (triple_forEach fun x _ => ?_) fun _ => ?_
  · refine keeps_get_bind fun (c, _) _ => ?_
    cases x.key with
    | hash bucket =>
        simp only
        split
        · exact serves_start hlife
        · exact keeps_pure
    | _ => exact keeps_pure
  · split
    · exact (serves_route hlife).bind fun _ => keeps_pure
    · exact keeps_pure

theorem serves_activate (hlife : life.Serves (Request.Suits (.hash hl)) I) :
    Keeps (Serving hl I) (activate life a) := by
  refine keeps_get_bind fun (c, _) _ => ?_
  simp only
  split
  · exact serves_preallocateAll hlife
  · exact serves_recoverAll hlife

theorem serves_restrict (hlife : life.Serves (Request.Suits (.hash hl)) I)
    (ranges : List BucketRange) : Keeps (Serving hl I) (restrict life ranges) := by
  have hend (child : Key × Handle) : Keeps (Serving hl I) (endChild life child) :=
    hlife.keeps_stop fun _ h => h
  refine Triple.bind (keeps_first_modify fun _ h => h) fun _ => ?_
  refine keeps_get_bind fun (c, _) _ => ?_
  refine Triple.bind (Q := fun _ => Serving hl I) ?_ fun ended => ?_
  · refine (keeps_forAll fun child _ => hend child).attempt.imp (fun _ h => h) ?_ fun _ _ h => h
    exact fun r s h => Ends.state (o := (r, s)) h
  · have htell : Keeps (Serving hl I) (Act.ofExcept ended) :=
      triple_ofExcept (fun _ _ _ h => h) fun _ _ _ h => h
    simp only
    split
    · exact (serves_preallocateAll hlife).bind fun _ => htell
    · exact htell

end HashController

/-- Whether an episode may begin with an initiator, or without one, after the first. -/
def EpisodeLevel.Begins (l : EpisodeLevel) : Option Event → Prop
  | some e => l.start.accepts e = true
  | none => l.start = .now

namespace EpisodeController

variable {el : EpisodeLevel}

abbrev Serving (el : EpisodeLevel) (I : σ → Prop) : EpisodeController × σ → Prop :=
  Both (fun c => c.level = el) I

def request (c : EpisodeController) (path : UInt32) (start : Int64) (initiator : Option Event) :
    Request :=
  let key := Key.episode start c.nextNumber
  let properties := (Level.episode c.level).propertiesOf key OrderedMap.empty
  { path
    key
    properties := match initiator with
      | some e => properties.insert initiatorTag e.toValue
      | none => properties
    trigger := initiator
    pattern := initiator.map fun e => OrderedMap.ofPairs [(initiatorTag, e)] }

abbrev Requests (C : EpisodeController → Prop) (P : Request → Prop) (start : Int64)
    (initiator : Option Event) : Prop :=
  ∀ (c : EpisodeController) (path : UInt32), C c → c.nextPath? = .ok path →
    P (c.request path start initiator)

variable {C : EpisodeController → Prop} {P : Request → Prop}

theorem serves_startEpisode (hlife : life.Serves P I) (hC : ∀ c, C c → c.level = el)
    {start : Int64} {initiator : Option Event} (hP : Requests C P start initiator) :
    Triple (Both C I) (startEpisode life start initiator) (fun _ => Serving el I)
      (fun _ => Serving el I) := by
  refine triple_get_bind fun (c, s) ⟨hc, hs⟩ => ?_
  have hserving : Serving el I (c, s) := ⟨hC c hc, hs⟩
  refine Triple.bind (Q := fun path p => c.nextPath? = .ok path ∧ Serving el I p) ?_ fun path => ?_
  · exact triple_ofExcept (fun path p hpath hp => ⟨hpath, hp ▸ hserving⟩)
      fun _ p _ hp => hp ▸ hserving
  · rintro p ⟨hpath, hp⟩
    exact hlife.keeps_start (f := fun h m => { m with
        nextNumber := m.nextNumber + 1
        children := m.children.insert (.episode start c.nextNumber) h })
      (hP c path hc hpath) (fun _ _ h => h) p hp

abbrev Continues (el : EpisodeLevel) (P : Request → Prop) : Prop :=
  ∀ start initiator, el.Begins initiator → Requests (fun c => c.level = el) P start initiator

theorem serves_restartIfNow (hlife : life.Serves P I) (hP : Continues el P) :
    Keeps (Serving el I) (restartIfNow life) := by
  refine keeps_get_bind fun (c, _) hc => ?_
  obtain rfl : c.level = el := hc.1
  simp only
  split
  · next hnow => exact serves_startEpisode hlife (fun _ h => h) (hP _ none hnow.1)
  · exact keeps_pure

theorem serves_endEpisodes (hlife : life.Serves P I) (ending : List (Key × Handle)) :
    Keeps (Serving el I) (forAll (endEpisode life) ending) :=
  keeps_forAll fun _ _ => hlife.keeps_stop fun _ h => h

theorem activate_triple (hlife : life.Serves P I) (hP : Continues el P)
    (hC : ∀ c, C c → c.level = el) (hclock : ∀ c now, C c → C { c with now })
    (hfirst : el.start = .now → Requests C P a.now a.trigger) :
    Triple (Both C I) (activate life a) (fun _ => Serving el I) (fun _ => Serving el I) := by
  refine Triple.bind (Q := fun _ => Both C I) ?_ fun _ => ?_
  · exact Triple.first fun _ => triple_modify fun c hc => ⟨hclock c _ hc.1, hc.2⟩
  refine triple_get_bind fun (c, s) hc => ?_
  obtain rfl : c.level = el := hC c hc.1
  have hserving : Serving c.level I (c, s) := ⟨rfl, hc.2⟩
  simp only
  split
  · next hnow => exact (serves_startEpisode hlife hC (hfirst hnow)).starting hc
  · next pattern e hstart _ =>
      split
      · next haccepts =>
          have hbegins : c.level.Begins (some e) := by
            rw [EpisodeLevel.Begins, hstart]
            exact haccepts
          exact (serves_startEpisode hlife (fun _ h => h) (hP _ _ hbegins)).starting hserving
      · exact triple_return hserving
  · exact triple_return hserving

theorem serves_route (hlife : life.Serves P I) (hP : Continues el P) :
    Keeps (Serving el I) (route life e) := by
  refine Triple.bind (Q := fun _ => Serving el I) ?_ fun _ => ?_
  · refine keeps_get_bind fun (c, _) _ => ?_
    simp only
    split
    · exact (serves_endEpisodes hlife _).bind fun _ => serves_restartIfNow hlife hP
    · exact keeps_pure
  · have hvalues : Keeps (Serving el I) (get >>= fun p => pure p.1.children.values) :=
      keeps_get_bind fun _ _ => keeps_pure
    refine keeps_get_bind fun (c, _) hc => ?_
    obtain rfl : c.level = el := hc.1
    simp only
    split
    · next hstart =>
        exact (serves_startEpisode hlife (fun _ h => h) (hP _ (some e) hstart.1)).bind
          fun _ => hvalues
    · exact hvalues

theorem serves_tick (hlife : life.Serves P I) (hP : Continues el P) (now : Int64) :
    Keeps (Serving el I) (tick life now) := by
  refine Triple.bind (keeps_first_modify fun _ h => h) fun _ => ?_
  refine keeps_get_bind fun (c, _) _ => ?_
  simp only
  split
  · exact keeps_pure
  · refine (serves_endEpisodes hlife _).bind fun _ => ?_
    split
    · exact keeps_pure
    · exact serves_restartIfNow hlife hP

theorem suits_request {start : Int64} {initiator : Option Event} :
    Requests (fun c => c.level = el) (Request.Suits (.episode el)) start initiator := by
  intro c path _ hpath
  refine ⟨start, c.nextNumber, rfl, ?_⟩
  rw [nextPath?] at hpath
  split at hpath
  · exact (Except.ok.inj hpath).symm
  · cases hpath

theorem serves_activate (hlife : life.Serves (Request.Suits (.episode el)) I) :
    Keeps (Serving el I) (activate life a) :=
  activate_triple hlife (fun _ _ _ => suits_request) (fun _ h => h) (fun _ _ h => h)
    fun _ => suits_request

end EpisodeController

namespace TemporalController

variable {tl : TemporalLevel}

abbrev Serving (tl : TemporalLevel) (I : σ → Prop) : TemporalController × σ → Prop :=
  Both (fun c => c.level = tl) I

theorem serves_sync (hlife : life.Serves (Request.Suits (.temporal tl)) I) {now : Int64}
    {trigger : Option Event} : Keeps (Serving tl I) (sync life now trigger) := by
  refine keeps_get_bind fun (c, _) hc => ?_
  obtain rfl : c.level = tl := hc.1
  simp only
  split
  · refine keeps_get_bind fun (c', _) _ => ?_
    refine Triple.bind (keeps_first_modify fun _ h => h) fun _ => ?_
    split
    · exact keeps_second (hlife.stop _)
    · exact keeps_pure
  · split
    · refine Triple.bind (keeps_first_modify fun _ h => h) fun _ => ?_
      exact hlife.keeps_start ⟨rfl, rfl⟩ fun _ _ h => h
    · exact keeps_pure

theorem serves_activate (hlife : life.Serves (Request.Suits (.temporal tl)) I) :
    Keeps (Serving tl I) (activate life a) :=
  Triple.bind (keeps_first_modify fun _ h => h) fun _ => serves_sync hlife

end TemporalController

namespace Scheme

abbrev Serving (l : Level) (I : σ → Prop) : Scheme × σ → Prop := Both (fun s => s.level = l) I

variable {e : Event} {now : Int64} {ranges : List BucketRange}

theorem serves_lift {wrap : μ → Scheme} {C : μ → Prop} {x : Act (μ × σ) α} {c : μ} {s : σ}
    (hx : Keeps (Both C I) x) (hc : C c) (hs : I s) (hwrap : ∀ c, C c → (wrap c).level = l)
    {t : Scheme} : Triple (fun p => p = (t, s)) (lift wrap x c) (fun _ => Serving l I)
      (fun _ => Serving l I) :=
  lift_triple ((hx (c, s) ⟨hc, hs⟩).imp (fun _ _ h => ⟨hwrap _ h.1, h.2⟩)
    fun _ _ h => ⟨hwrap _ h.1, h.2⟩)

theorem serves_activate (hlife : life.Serves (Request.Suits l) I) :
    Keeps (Serving l I) (activate life a) := by
  refine triple_get_bind fun (scheme, s) ⟨hl, hI⟩ => ?_
  subst hl
  cases scheme with
  | keyed c =>
      exact serves_lift (KeyedController.serves_activate hlife) rfl hI fun _ => congrArg Level.keyed
  | category c =>
      exact serves_lift (CategoryController.serves_activate hlife) rfl hI
        fun _ => congrArg Level.category
  | hash c =>
      exact serves_lift (HashController.serves_activate hlife) rfl hI fun _ => congrArg Level.hash
  | episode c =>
      exact serves_lift (EpisodeController.serves_activate hlife) rfl hI
        fun _ => congrArg Level.episode
  | temporal c =>
      exact serves_lift (TemporalController.serves_activate hlife) rfl hI
        fun _ => congrArg Level.temporal

theorem serves_route (hlife : life.Serves (Request.Suits l) I) :
    Keeps (Serving l I) (route life e) := by
  refine triple_get_bind fun (scheme, s) hs => ?_
  obtain ⟨hl, hI⟩ := hs
  subst hl
  cases scheme with
  | keyed c =>
      exact serves_lift (KeyedController.serves_route hlife) rfl hI fun _ => congrArg Level.keyed
  | category c => exact triple_return ⟨rfl, hI⟩
  | hash c =>
      exact serves_lift (HashController.serves_route hlife) rfl hI fun _ => congrArg Level.hash
  | episode c =>
      exact serves_lift (EpisodeController.serves_route hlife fun _ _ _ =>
        EpisodeController.suits_request) rfl hI fun _ => congrArg Level.episode
  | temporal c => exact triple_return ⟨rfl, hI⟩

theorem serves_tick (hlife : life.Serves (Request.Suits l) I) :
    Keeps (Serving l I) (tick life now) := by
  refine triple_get_bind fun (scheme, s) ⟨hl, hI⟩ => ?_
  subst hl
  cases scheme with
  | episode c =>
      exact serves_lift (EpisodeController.serves_tick hlife (fun _ _ _ =>
        EpisodeController.suits_request) now) rfl hI fun _ => congrArg Level.episode
  | temporal c =>
      exact serves_lift (TemporalController.serves_sync hlife) rfl hI
        fun _ => congrArg Level.temporal
  | _ => exact triple_return ⟨rfl, hI⟩

theorem serves_restrict (hlife : life.Serves (Request.Suits l) I) :
    Keeps (Serving l I) (restrict life ranges) := by
  refine triple_get_bind fun (scheme, s) ⟨hl, hI⟩ => ?_
  subst hl
  cases scheme with
  | hash c =>
      exact serves_lift (HashController.serves_restrict hlife ranges) rfl hI
        fun _ => congrArg Level.hash
  | _ =>
      apply triple_fail
      rintro _ rfl
      exact ⟨rfl, hI⟩

end Scheme

namespace Controller

variable {post : Post}

abbrev Serving (post : Post) (I : σ → Prop) : Controller × σ → Prop :=
  Both (fun c => c.post = post) I

theorem serves_run {x : Act (Scheme × σ) α} (h : Keeps (Scheme.Serving post.level I) x) :
    Keeps (Serving post I) (run x) :=
  (run_triple h (fun _ _ hp => hp.1) fun _ _ hp => hp.1).imp
    (fun _ hp => ⟨hp.1, congrArg Post.level hp.1, hp.2⟩) (fun _ _ hp => ⟨hp.1, hp.2.2⟩)
    fun _ _ hp => ⟨hp.1, hp.2.2⟩

end Controller

end EventContexts
