import EventContexts.Level
import Mathlib.Data.List.Basic
import Mathlib.Data.List.Induction
import Mathlib.Data.List.Infix

namespace EventContexts

namespace EpisodeLevel

variable {l : EpisodeLevel} {es more : List Event} {e : Event}

def recent (l : EpisodeLevel) : List Event → List Event
  | [] => []
  | e :: es => if es.any l.stop.accepts then l.recent es else e :: es

def courses (l : EpisodeLevel) (es : List Event) : List (List Event) :=
  es.tails.filter fun t => t.head?.any l.start.accepts

/-- The events of each episode that is live after some events, from its first event on: one episode
for each event that episodes start with, since some were last ended. Only the first of them came
to life if episodes do not overlap. -/
def episodes (l : EpisodeLevel) (es : List Event) : List (List Event) :=
  if l.overlapping then l.courses (l.recent es) else (l.courses (l.recent es)).take 1

def lasting (l : EpisodeLevel) (es : List Event) (e : Event) : List (List Event) :=
  if l.stop.accepts e then [] else l.episodes es

def Starts (l : EpisodeLevel) (es : List Event) (e : Event) : Prop :=
  l.start.accepts e ∧ (l.overlapping ∨ l.lasting es e = [])

instance : Decidable (l.Starts es e) := inferInstanceAs (Decidable (_ ∧ _))

/-- How many episodes have come to life: as often there was one of a single event. -/
def started (l : EpisodeLevel) (es : List Event) : Nat :=
  es.inits.countP fun before => (l.episodes before).any fun course => course.length = 1

theorem recent_concat :
    l.recent (es ++ [e]) = if l.stop.accepts e then [e] else l.recent es ++ [e] := by
  induction es with
  | nil => simp [recent]
  | cons x es ih =>
      rw [List.cons_append, recent, recent, ih, List.any_append, List.any_cons, List.any_nil,
        Bool.or_false]
      cases l.stop.accepts e <;> cases es.any l.stop.accepts <;> rfl

theorem courses_concat : l.courses (es ++ [e]) =
    (l.courses es).map (· ++ [e]) ++ if l.start.accepts e then [[e]] else [] := by
  induction es with
  | nil => cases h : l.start.accepts e <;> simp [courses, h]
  | cons x es ih =>
      rw [courses] at ih
      rw [courses, courses, List.cons_append, List.tails_cons, List.tails_cons, List.filter_cons,
        List.filter_cons, ih]
      cases h : l.start.accepts x <;> simp [h, courses]

theorem episodes_concat : l.episodes (es ++ [e]) =
    (l.lasting es e).map (· ++ [e]) ++ if l.Starts es e then [[e]] else [] := by
  let kept : List (List Event) := if l.stop.accepts e then [] else l.courses (l.recent es)
  have hcourses : l.courses (l.recent (es ++ [e])) =
      kept.map (· ++ [e]) ++ if l.start.accepts e then [[e]] else [] := by
    rw [recent_concat]
    by_cases hstop : l.stop.accepts e
    · simp only [kept, if_pos hstop]
      exact @courses_concat l [] e
    · simp only [kept, if_neg hstop]
      exact courses_concat
  have hlasting : l.lasting es e = if l.overlapping then kept else kept.take 1 := by
    rw [lasting, episodes]
    by_cases hstop : l.stop.accepts e
    · simp only [kept, if_pos hstop, List.take_nil, ite_self]
    · simp only [kept, if_neg hstop]
  rw [episodes, hcourses]
  simp only [Starts, hlasting]
  by_cases hoverlapping : l.overlapping = true
  · simp only [hoverlapping, if_true, true_or, and_true]
  · simp only [hoverlapping, Bool.false_eq_true, if_false, false_or]
    -- with one course already there, a further one is not the first
    cases kept with
    | nil => cases l.start.accepts e <;> rfl
    | cons course kept => simp

theorem ne_nil_of_mem_episodes {course : List Event} (h : course ∈ l.episodes es) :
    course ≠ [] := by
  have hcourse : course ∈ l.courses (l.recent es) := by
    rw [episodes] at h
    split at h
    · exact h
    · exact List.mem_of_mem_take h
  rintro rfl
  simp [courses] at hcourse

theorem started_concat :
    l.started (es ++ [e]) = l.started es + if l.Starts es e then 1 else 0 := by
  -- an episode that was there before has more events by now
  have hlasting : ((l.lasting es e).map (· ++ [e])).any (fun course => course.length = 1) =
      false := by
    refine List.any_eq_false.2 fun course hcourse => ?_
    obtain ⟨before, hbefore, rfl⟩ := List.mem_map.1 hcourse
    rw [lasting] at hbefore
    split at hbefore
    · cases hbefore
    · simpa using ne_nil_of_mem_episodes hbefore
  have hbegun : (l.episodes (es ++ [e])).any (fun course => course.length = 1) =
      decide (l.Starts es e) := by
    rw [episodes_concat, List.any_append, hlasting]
    by_cases h : l.Starts es e <;> simp [h]
  have hinits : (es ++ [e]).inits = es.inits ++ [es ++ [e]] := by simp [List.inits_append]
  rw [started, started, hinits, List.countP_append, List.countP_singleton, hbegun]
  simp only [decide_eq_true_eq]

theorem started_le_append : l.started es ≤ l.started (es ++ more) := by
  induction more using List.reverseRecOn with
  | nil => rw [List.append_nil]
  | append_singleton more e ih =>
      rw [← List.append_assoc, started_concat]
      exact Nat.le_add_right_of_le ih

theorem length_lasting_le : (l.lasting es e).length ≤ (l.episodes es).length := by
  rw [lasting]
  split
  · exact Nat.zero_le _
  · exact Nat.le_refl _

theorem length_episodes_le : (l.episodes es).length ≤ l.started es := by
  induction es using List.reverseRecOn with
  | nil => simp [episodes, courses, recent]
  | append_singleton es e ih =>
      rw [episodes_concat, started_concat, List.length_append, List.length_map]
      refine Nat.add_le_add (length_lasting_le.trans ih) ?_
      split <;> simp

end EpisodeLevel

end EventContexts
