import EventContexts.Level

namespace EventContexts

structure Declaration where
  name : String
  outer : Level
  inner : List Level
  sound : ∀ l ∈ outer :: inner, l.flaw? = none
  distinct : ((outer :: inner).map Level.name).Nodup

namespace Declaration

def levels (d : Declaration) : List Level := d.outer :: d.inner

def depth (d : Declaration) : Nat := d.levels.length

def repeatedName? : List String → List Level → Option String
  | _, [] => none
  | seen, l :: rest =>
      if l.name ∈ seen then some l.name else repeatedName? (l.name :: seen) rest

theorem nodup_of_repeatedName? {seen : List String} {levels : List Level}
    (h : repeatedName? seen levels = none) :
    (levels.map Level.name).Nodup ∧ ∀ l ∈ levels, l.name ∉ seen := by
  induction levels generalizing seen with
  | nil => simp
  | cons l rest ih =>
      simp only [repeatedName?] at h
      split at h
      · cases h
      · next hl =>
          obtain ⟨hrest, hseen⟩ := ih h
          refine ⟨List.nodup_cons.2 ⟨fun hmem => ?_, hrest⟩, fun m hm => ?_⟩
          · obtain ⟨m, hm, hname⟩ := List.mem_map.1 hmem
            exact hseen m hm (hname ▸ List.mem_cons_self ..)
          · rcases List.mem_cons.1 hm with rfl | hm
            · exact hl
            · exact fun hs => hseen m hm (List.mem_cons_of_mem _ hs)

def checkAll {α : Type} (check : α → Except Error Unit) : List α → Except Error Unit
  | [] => .ok ()
  | x :: rest =>
      match check x with
      | .ok () => checkAll check rest
      | .error e => .error e

theorem check_of_checkAll {α : Type} {check : α → Except Error Unit} {xs : List α}
    (h : checkAll check xs = .ok ()) : ∀ x ∈ xs, check x = .ok () := by
  induction xs with
  | nil => simp
  | cons x rest ih =>
      simp only [checkAll] at h
      split at h
      · next hx =>
          intro y hy
          rcases List.mem_cons.1 hy with rfl | hy
          · exact hx
          · exact ih h y hy
      · cases h

theorem flaw?_of_check {l : Level} (h : l.check = .ok ()) : l.flaw? = none := by
  simp only [Level.check] at h
  split at h
  · cases h
  · next hl => exact hl

/-- Checks the levels one by one, then that there are some, then their names. -/
def make (name : String) (levels : List Level) : Except Error Declaration :=
  match hc : checkAll Level.check levels with
  | .error e => .error e
  | .ok () =>
      match levels, hc with
      | [], _ => .error (.noLevels name)
      | outer :: inner, hc =>
          match hn : repeatedName? [] (outer :: inner) with
          | some repeated => .error (.repeatedLevel name repeated)
          | none => .ok
              { name, outer, inner
                sound := fun l hl => flaw?_of_check (check_of_checkAll hc l hl)
                distinct := (nodup_of_repeatedName? hn).1 }

def firstFault? (name : String) : List String → List Level → Option Error
  | _, [] => none
  | seen, l :: rest =>
      if l.name ∈ seen then some (.repeatedLevel name l.name)
      else match l.check with
        | .error e => some e
        | .ok () => firstFault? name (l.name :: seen) rest

/-- Like `make`, but goes through the levels once and refuses an empty list first. -/
def makeInOrder (name : String) (levels : List Level) : Except Error Declaration :=
  if levels.isEmpty then .error (.noLevels name)
  else match firstFault? name [] levels with
    | some e => .error e
    | none => make name levels

end Declaration

end EventContexts
