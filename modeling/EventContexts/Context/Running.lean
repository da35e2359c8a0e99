import EventContexts.Context

namespace EventContexts

namespace Setting

def startAt (env : Setting) (r : Request) (below : List Level) (path : Path) :
    Act (Node (Children below) × Books) Handle := fun (node, b) =>
  let (outcome, (children, b)) := env.startChild below path node.controller r (node.children, b)
  (outcome, ({ node with children }, b))

def endAt (env : Setting) (h : Handle) (termination : Option Props) (below : List Level) :
    Act (Node (Children below) × Books) Unit := fun (node, b) =>
  if holds below node.children node.controller.id h then
    let (outcome, (children, b)) :=
      env.endChild termination below node.controller.id h (node.children, b)
    (outcome, ({ controller := node.controller.forget h, children }, b))
  else (.ok (), (node, b))

end Setting

namespace Context

def onRoot {α : Type} (c : Context)
    (f : Node (Children c.declaration.inner) × Books →
      Option (Except Error α × (Node (Children c.declaration.inner) × Books))) :
    Option (Except Error α × Context) :=
  match c.root with
  | none => none
  | some root =>
      (f (root, c.books)).map fun (r, (root, books)) => (r, { c with root := some root, books })

def process (runtime : Runtime) (e : Event) : Act Context Unit := fun c =>
  (c.onRoot fun tree => some ((c.setting runtime).offer e _ [] tree)).getD (.ok (), c)

/-- Runs a step of the controllers that are live now, in the order given; those that have ended
when their turn comes are passed over. -/
def driveEach (runtime : Runtime)
    (x : {σ : Type} → Lifecycle σ → Act (Controller × σ) Unit) :
    List ControllerId → Act Context Unit :=
  Act.forEach fun id c =>
    let env := c.setting runtime
    (c.onRoot fun tree =>
      Node.atController id (fun below path => env.drive below path x) _ [] tree).getD (.ok (), c)

def advance (runtime : Runtime) (now : Int64) : Act Context Unit := fun c =>
  let c := { c with now }
  driveEach runtime (fun life => Controller.tick life now)
    (c.controllers.map Controller.id) c

/-- Confines every controller of a level, the outermost at 1, to ranges of buckets. -/
def restrict (runtime : Runtime) (level : Nat) (ranges : List BucketRange) :
    Act Context Unit := fun c =>
  if level = 0 ∨ c.depth < level then
    (.error (.unsupported
      s!"context '{c.declaration.name}' has no nesting level {level}"), c)
  else
    let ids := match c.root with
      | some root => (root.controllersAt _ (level - 1)).map Controller.id
      | none => []
    driveEach runtime (fun life => Controller.restrict life ranges) ids c

def instantiate (runtime : Runtime) (originator : ControllerId) (r : Request) :
    Act Context Handle := fun c =>
  let env := c.setting runtime
  (c.onRoot fun tree => Node.atController originator (env.startAt r) _ [] tree).getD
    (.error (.controllerUnknown originator), c)

def terminate (runtime : Runtime) (h : Handle) (termination : Option Props) :
    Act Context Unit := fun c =>
  let env := c.setting runtime
  (c.onRoot fun tree =>
    Node.atController h.owner (fun below _ => env.endAt h termination below) _ [] tree).getD
    (.ok (), c)

end Context

end EventContexts
