/-!
Counters of one context, and their text in the exposition format. A family without a sample is
not listed.
-/

namespace EventContexts

structure Metrics where
  partitionsCreated : Option Nat := none
  partitionsTerminated : Option Nat := none
  activePartitions : Option Nat := none
  agentsStarted : Option Nat := none
  agentsStopped : Option Nat := none
  stopFailures : Option Nat := none
  deriving DecidableEq, Repr

namespace Metrics

def tick (n : Option Nat) : Option Nat := some (n.getD 0 + 1)

def countCreated (m : Metrics) : Metrics := { m with partitionsCreated := tick m.partitionsCreated }

def countTerminated (m : Metrics) : Metrics :=
  { m with partitionsTerminated := tick m.partitionsTerminated }

def countStarted (m : Metrics) : Metrics := { m with agentsStarted := tick m.agentsStarted }

def countStopped (m : Metrics) : Metrics := { m with agentsStopped := tick m.agentsStopped }

def countStopFailure (m : Metrics) : Metrics := { m with stopFailures := tick m.stopFailures }

def setActive (n : Nat) (m : Metrics) : Metrics := { m with activePartitions := some n }

def escapeLabel (label : String) : String :=
  String.join <| label.toList.map fun c =>
    if c = '\\' then "\\\\" else if c = '"' then "\\\"" else if c = '\n' then "\\n"
    else String.singleton c

def family (label name help kind : String) : Option Nat → String
  | none => ""
  | some n =>
      "# HELP " ++ name ++ " " ++ help ++ "\n# TYPE " ++ name ++ " " ++ kind ++ "\n" ++
        name ++ "\x7bcontext=\"" ++ escapeLabel label ++ "\"\x7d " ++ toString n ++ "\n"

def exposition (m : Metrics) (context : String) : String :=
  let counter (name help : String) := family context ("varpulis_context_" ++ name) help "counter"
  family context "varpulis_context_active_partitions" "Live leaf partitions" "gauge"
      m.activePartitions ++
    counter "agent_instances_started_total" "Statement instances started inside partitions"
      m.agentsStarted ++
    counter "agent_instances_stopped_total" "Statement instances stopped cleanly"
      m.agentsStopped ++
    counter "partitions_created_total" "Leaf partitions started" m.partitionsCreated ++
    counter "partitions_terminated_total" "Leaf partitions ended" m.partitionsTerminated ++
    counter "stop_failures_total" "Statement instances whose stop failed" m.stopFailures

end Metrics

end EventContexts
