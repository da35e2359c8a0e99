import EventContexts.Controller.Lifecycle
import EventContexts.Level
/-!
Episodes: a child between an initiating event, or the present, and a terminating event or the
end of a duration.
-/

namespace EventContexts

structure EpisodeController where
  level : EpisodeLevel
  children : Brood := OrderedMap.empty
  nextNumber : UInt64 := 0
  now : Int64 := 0

namespace EpisodeController

variable {σ : Type}

def nextPath? (c : EpisodeController) : Except Error UInt32 :=
  if c.nextNumber.toNat < UInt32.size then .ok c.nextNumber.toUInt32
  else .error (.unsupported s!"Context '{c.level.name}' has no episode path ids left")

def startEpisode (life : Lifecycle σ) (start : Int64) (initiator : Option Event) :
    Act (EpisodeController × σ) Unit := do
  let (c, _) ← Act.get
  let key := Key.episode start c.nextNumber
  let properties := (Level.episode c.level).propertiesOf key OrderedMap.empty
  let request : Request :=
    { path := ← Act.ofExcept c.nextPath?
      key
      properties := match initiator with
        | some e => properties.insert initiatorTag e.toValue
        | none => properties
      trigger := initiator
      pattern := initiator.map fun e => OrderedMap.ofPairs [(initiatorTag, e)] }
  let handle ← Act.second (life.start request)
  Act.first <| Act.modify fun c =>
    { c with nextNumber := c.nextNumber + 1, children := c.children.insert key handle }

def endEpisode (life : Lifecycle σ) (child : Key × Handle) :
    Act (EpisodeController × σ) Unit := do
  Act.first <| Act.modify fun c => { c with children := c.children.erase child.1 }
  Act.second (life.stop child.2)

def restartIfNow (life : Lifecycle σ) : Act (EpisodeController × σ) Unit := do
  let (c, _) ← Act.get
  if c.level.start = .now ∧ c.children.isEmpty then startEpisode life c.now none else pure ()

def activate (life : Lifecycle σ) (activation : Activation) :
    Act (EpisodeController × σ) Unit := do
  Act.first <| Act.modify fun c => { c with now := activation.now }
  let (c, _) ← Act.get
  match c.level.start, activation.trigger with
  | .now, trigger => startEpisode life activation.now trigger
  | .event pattern, some e =>
      if pattern.accepts e then startEpisode life e.millis (some e) else pure ()
  | .event _, none => pure ()

def close (life : Lifecycle σ) (e : Event) : Act (EpisodeController × σ) Unit := do
  let (c, _) ← Act.get
  if c.level.stop.accepts e then
    Act.forAll (endEpisode life) c.children.entries
    restartIfNow life
  else pure ()

def receive (life : Lifecycle σ) (e : Event) : Act (EpisodeController × σ) (List Handle) := do
  let (c, _) ← Act.get
  if c.level.start.accepts e ∧ (c.level.overlapping ∨ c.children.isEmpty) then
    startEpisode life e.millis (some e)
  else pure ()
  return c.children.values

/-- Ends and starts episodes as the event says. It goes to those that were running in between. -/
def route (life : Lifecycle σ) (e : Event) : Act (EpisodeController × σ) (List Handle) := do
  close life e
  receive life e

def expired (c : EpisodeController) (duration : Int64) (now : Int64) : List (Key × Handle) :=
  c.children.entries.filter fun (k, _) =>
    match k with
    | .episode start _ => decide (saturatingAdd start duration ≤ now)
    | _ => false

def tick (life : Lifecycle σ) (now : Int64) : Act (EpisodeController × σ) Unit := do
  Act.first <| Act.modify fun c => { c with now }
  let (c, _) ← Act.get
  match c.level.stop with
  | .event _ => pure ()
  | .after duration =>
      let ending := c.expired duration now
      Act.forAll (endEpisode life) ending
      if ending.isEmpty then pure () else restartIfNow life

end EpisodeController

end EventContexts
