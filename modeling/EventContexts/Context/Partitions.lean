import EventContexts.Context.Agents

namespace EventContexts

namespace Setting

/-- Chooses the identifier of a partition: the assigned one, or a fresh one. The identifiers are a
limit of their own: with all of them in use, the search for a fresh one would have no end. -/
def claim (env : Setting) (assigned : Option UInt32) : Act Books UInt32 := fun b =>
  match assigned with
  | some partition =>
      match b.ids.add partition with
      | (true, ids) => (.ok partition, { b with ids })
      | (false, _) => (.error (.partitionInUse partition), b)
  | none =>
      if b.ids.count < UInt32.size then
        let (partition, ids) := b.ids.allocate
        (.ok partition, { b with ids })
      else (.error (.partitionLimit env.descriptor.name UInt32.size), b)

def capture (r : Request) : Props :=
  ((r.pattern.map OrderedMap.entries).getD []).foldl
    (fun props (tag, e) => props.insert tag e.toValue) r.properties

/-- Starts a partition under the last level. All or none of its instances start. -/
def startPartition (env : Setting) (node : Controller) (path : Path) (r : Request) :
    Act (Table Running × Books) Handle := fun (partitions, b) =>
  if env.limit.any fun limit => decide (limit ≤ b.ids.count) then
    (.error (.partitionLimit env.descriptor.name (env.limit.getD 0)), (partitions, b))
  else
    match env.claim r.assigned b with
    | (.error e, b) => (.error e, (partitions, b))
    | (.ok partition, b) =>
        let properties := capture r
        let path := path ++ [⟨node.level, r.key, properties⟩]
        match env.startAgents path partition r.recovered.isSome env.statements [] b with
        | (.error e, b) => (.error e, (partitions, b.release partition))
        | (.ok agents, b) =>
            let (agents, b) := match r.trigger with
              | some e => offerAll e agents b
              | none => (agents, b)
            let generation := b.nextGeneration
            let partitions :=
              partitions.insert partition { generation, key := r.key, properties, agents }
            let b := { b with nextGeneration := generation + 1 }
            (.ok (.leaf node.id partition generation),
              (partitions, (b.count Metrics.countCreated).updateGauge))

def closePartition (env : Setting) (termination : Option Props) (statementLevel : Bool)
    (leaf : UInt32 × List Agent) : Act Books Unit := fun b =>
  let (r, b) := env.stopAgents termination statementLevel leaf.2 b
  (r, (b.release leaf.1).count Metrics.countTerminated)

def closeAll (env : Setting) (termination : Option Props) (statementLevel : Bool)
    (below : List Level) (node : Node (Children below)) : Act Books Unit := fun b =>
  let leaves := (node.leaves below []).map fun l => (l.partition, l.running.agents)
  let (r, b) := Act.forAll (env.closePartition termination statementLevel) leaves b
  (r, b.updateGauge)

end Setting

end EventContexts
