import EventContexts.Controller
/-!
Context trees. The levels below a node fix the shape of what hangs there: partitions under the
last level, branches with a controller of the next level under the others.
-/

namespace EventContexts

/-- A live partition: its key, the properties captured when it started, and an instance of each
statement in the order of attachment. -/
structure Running where
  generation : Nat
  key : Key
  properties : Props
  agents : List Agent

structure Node (γ : Type) where
  controller : Controller
  children : γ

structure Branch (γ : Type) where
  key : Key
  properties : Props
  node : Node γ

/-- What hangs under a node, by the levels below it. -/
def Children : List Level → Type
  | [] => Table Running
  | _ :: below => Table (Branch (Children below))

def Children.empty : (below : List Level) → Children below
  | [] => (Table.empty : Table Running)
  | _ :: below => (Table.empty : Table (Branch (Children below)))

structure Step where
  level : Level
  key : Key
  properties : Props

/-- The steps from the root, outermost first. -/
abbrev Path := List Step

def Path.keys (p : Path) : List Key := p.map Step.key

structure Leaf where
  path : Path
  controller : ControllerId
  partition : UInt32
  running : Running

def Branch.visit {γ ω ε : Type} (f : Node γ → ω → Except ε (Node γ) × ω) (b : Branch γ) (w : ω) :
    Except ε (Branch γ) × ω :=
  match f b.node w with
  | (.ok n, w) => (.ok { b with node := n }, w)
  | (.error e, w) => (.error e, w)

namespace Node

def step {γ : Type} (node : Node γ) (key : Key) (properties : Props) : Step :=
  ⟨node.controller.level, key, properties⟩

/-- All partitions under a node, siblings by ascending identifier. The path leads to the node. -/
def leaves : (below : List Level) → Path → Node (Children below) → List Leaf
  | [], path, node =>
      let partitions : Table Running := node.children
      partitions.entries.map fun (partition, r) =>
        ⟨path ++ [node.step r.key r.properties], node.controller.id, partition, r⟩
  | _ :: below, path, node =>
      let branches : Table (Branch (Children below)) := node.children
      branches.entries.flatMap fun (_, b) =>
        leaves below (path ++ [node.step b.key b.properties]) b.node

def controllersAt : (below : List Level) → (depth : Nat) → Node (Children below) →
    List Controller
  | _, 0, node => [node.controller]
  | [], _ + 1, _ => []
  | _ :: below, depth + 1, node =>
      let branches : Table (Branch (Children below)) := node.children
      branches.entries.flatMap fun (_, b) => controllersAt below depth b.node

def controllers (below : List Level) (node : Node (Children below)) : List Controller :=
  (List.range (below.length + 1)).flatMap fun depth => controllersAt below depth node

def atController {ω α : Type} (id : ControllerId)
    (f : (below : List Level) → Path → Act (Node (Children below) × ω) α) :
    (below : List Level) → Path → Node (Children below) × ω →
      Option (Except Error α × (Node (Children below) × ω))
  | [], path, (node, w) =>
      if node.controller.id = id then some (f [] path (node, w)) else none
  | l :: below, path, (node, w) =>
      if node.controller.id = id then some (f (l :: below) path (node, w))
      else
        let branches : Table (Branch (Children below)) := node.children
        branches.entries.findSome? fun (k, b) =>
          (atController id f below (path ++ [node.step b.key b.properties]) (b.node, w)).map
            fun (r, (n, w)) =>
              let branches := branches.replace k { b with node := n }
              (r, ({ node with children := branches }, w))

def traverseLeaves {ω ε : Type} (f : Leaf → ω → Except ε Running × ω) :
    (below : List Level) → Path → Node (Children below) → ω →
      Except ε (Node (Children below)) × ω
  | [], path, node, w =>
      let partitions : Table Running := node.children
      let visit (partition : UInt32) (r : Running) : ω → Except ε Running × ω :=
        f ⟨path ++ [node.step r.key r.properties], node.controller.id, partition, r⟩
      match partitions.traverse visit w with
      | (.ok (partitions : Table Running), w) => (.ok { node with children := partitions }, w)
      | (.error e, w) => (.error e, w)
  | _ :: below, path, node, w =>
      let branches : Table (Branch (Children below)) := node.children
      let visit (_ : UInt32) (b : Branch (Children below)) :
          ω → Except ε (Branch (Children below)) × ω :=
        b.visit (traverseLeaves f below (path ++ [node.step b.key b.properties]))
      match branches.traverse visit w with
      | (.ok (branches : Table (Branch (Children below))), w) =>
          (.ok { node with children := branches }, w)
      | (.error e, w) => (.error e, w)

def assignments : (below : List Level) → Node (Children below) → List Assignment
  | [], node =>
      let partitions : Table Running := node.children
      partitions.entries.map fun (partition, r) =>
        { key := r.key, partition := some partition }
  | _ :: below, node =>
      let branches : Table (Branch (Children below)) := node.children
      branches.entries.map fun (_, b) =>
        { key := b.key, children := assignments below b.node }

/-- The child at the end of a way of keys; the first of several siblings with one key. -/
def find? : (below : List Level) → Node (Children below) → List Key → Option Handle
  | _, _, [] => none
  | [], node, [key] =>
      let partitions : Table Running := node.children
      (partitions.entries.find? fun (_, r) => r.key = key).map fun (partition, r) =>
        .leaf node.controller.id partition r.generation
  | [], _, _ :: _ :: _ => none
  | _ :: below, node, key :: rest =>
      let branches : Table (Branch (Children below)) := node.children
      match branches.entries.find? fun (_, b) => b.key = key with
      | none => none
      | some (path, b) =>
          match rest with
          | [] => some (.branch node.controller.id path b.node.controller.id)
          | key :: rest => find? below b.node (key :: rest)

def isConsistent : (below : List Level) → (nesting : Nat) → Node (Children below) → Bool
  | [], nesting, node => node.controller.nesting == nesting
  | _ :: below, nesting, node =>
      let branches : Table (Branch (Children below)) := node.children
      node.controller.nesting == nesting &&
        branches.entries.all fun (path, b) =>
          b.node.controller.path == path && isConsistent below (nesting + 1) b.node

end Node

end EventContexts
