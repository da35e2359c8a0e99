import EventContexts.Context.Partitions
/-!
Carrying out what controllers decide. Starting a child under a level other than the last means a
new controller, which wakes up at once and starts children of its own.
-/

namespace EventContexts

namespace Setting

def holds : (below : List Level) → Children below → ControllerId → Handle → Bool
  | [], partitions, id, .leaf controller partition generation =>
      let partitions : Table Running := partitions
      controller == id &&
        (partitions.get? partition).any fun r => r.generation == generation
  | _ :: below, branches, id, .branch parent path child =>
      let branches : Table (Branch (Children below)) := branches
      parent == id && (branches.get? path).any fun b => b.node.controller.id == child
  | [], _, _, .branch .. => false
  | _ :: _, _, _, .leaf .. => false

/-- Ends a child and all that hangs under it. A handle that has gone stale is ignored. -/
def endChild (env : Setting) (termination : Option Props) :
    (below : List Level) → ControllerId → Handle → Act (Children below × Books) Unit
  | [], id, h => fun (children, b) =>
      let partitions : Table Running := children
      match holds [] children id h, partitions.get? h.id with
      | true, some r =>
          let (outcome, b) := env.closePartition termination false (h.id, r.agents) b
          (outcome, (partitions.erase h.id, b.updateGauge))
      | _, _ => (.ok (), (children, b))
  | l :: below, id, h => fun (children, b) =>
      let branches : Table (Branch (Children below)) := children
      match holds (l :: below) children id h, branches.get? h.id with
      | true, some branch =>
          let (outcome, b) := env.closeAll termination false below branch.node b
          (outcome, (branches.erase h.id, b))
      | _, _ => (.ok (), (children, b))

/-- Starts a child of a node. When anything under it fails to start, all of it is ended again. -/
def startChild (env : Setting) :
    (below : List Level) → Path → Controller → Request → Act (Children below × Books) Handle
  | [], path, node, r => env.startPartition node path r
  | level :: below, path, node, r => fun (children, b) =>
      let branches : Table (Branch (Children below)) := children
      let child : ControllerId := ⟨b.nextController⟩
      let b := { b with nextController := b.nextController + 1 }
      if branches.contains r.path then (.error (.pathInUse node.id r.path), (children, b))
      else
        let path := path ++ [⟨node.level, r.key, r.properties⟩]
        let fresh := Controller.create level child r.path (node.nesting + 1)
        let life : Lifecycle (Children below × Books) :=
          { start := startChild env below path fresh
            stop := env.endChild none below child }
        let activation : Activation :=
          { trigger := r.trigger, recovered := r.recovered.getD [], now := env.now }
        match Controller.activate life activation (fresh, (Children.empty below, b)) with
        | (.ok (), (controller, (grown, b))) =>
            let branch : Branch (Children below) :=
              { key := r.key, properties := r.properties
                node := { controller, children := grown } }
            (.ok (.branch node.id r.path child), (branches.insert r.path branch, b))
        | (.error e, (controller, (grown, b))) =>
            (.error e,
              (children, (env.closeAll none false below { controller, children := grown } b).2))

def lifecycle (env : Setting) (below : List Level) (path : Path) (node : Controller) :
    Lifecycle (Children below × Books) :=
  { start := env.startChild below path node
    stop := env.endChild none below node.id }

def drive {α : Type} (env : Setting) (below : List Level) (path : Path)
    (x : Lifecycle (Children below × Books) → Act (Controller × (Children below × Books)) α) :
    Act (Node (Children below) × Books) α := fun (node, b) =>
  let (r, (controller, (children, b))) :=
    x (env.lifecycle below path node.controller) (node.controller, (node.children, b))
  (r, ({ controller, children }, b))

def offerPartition (e : Event) (h : Handle) : Act (Node (Children []) × Books) Unit :=
  fun (node, b) =>
    let partitions : Table Running := node.children
    match holds [] node.children node.controller.id h, partitions.get? h.id with
    | true, some r =>
        let (agents, b) := offerAll e r.agents b
        let partitions := partitions.insert h.id { r with agents }
        (.ok (), ({ node with children := partitions }, b))
    | _, _ => (.ok (), (node, b))

def inBranch {l : Level} {below : List Level}
    (visit : Path → Act (Node (Children below) × Books) Unit) (path : Path) (h : Handle) :
    Act (Node (Children (l :: below)) × Books) Unit := fun (node, b) =>
  let branches : Table (Branch (Children below)) := node.children
  match holds (l :: below) node.children node.controller.id h, branches.get? h.id with
  | true, some branch =>
      let path := path ++ [node.step branch.key branch.properties]
      let (r, (n, b)) := visit path (branch.node, b)
      let branches := branches.insert h.id { branch with node := n }
      (r, ({ node with children := branches }, b))
  | _, _ => (.ok (), (node, b))

def offer (env : Setting) (e : Event) :
    (below : List Level) → Path → Act (Node (Children below) × Books) Unit
  | [], path => do
      let targets ← env.drive [] path fun life => Controller.route life e
      Act.forEach (offerPartition e) targets
  | l :: below, path => do
      let targets ← env.drive (l :: below) path fun life => Controller.route life e
      Act.forEach (inBranch (offer env e below) path) targets

end Setting

end EventContexts
