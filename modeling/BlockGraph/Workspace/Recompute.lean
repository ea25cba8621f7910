import BlockGraph.Solver.Basic
import BlockGraph.Workspace.Scope

/-!
Rebuilding the types of components.

Taking away a link cannot be undone in the types that it led to.  So every node of the components
concerned gets a fresh instance of its signature, and the links that remain are solved again, in an
order in which every node comes after those that feed it.
-/

namespace BlockGraph

namespace Graph

def setTypes (g : Graph) (types : List (SocketId × Ty)) : Graph :=
  types.foldl (fun g (s, ty) => g.modifySocket s fun socket => { socket with ty }) g

/-- The links into the inputs of nodes, node by node. -/
def linksInto (g : Graph) (nodes : List NodeId) : List Link :=
  nodes.flatMap fun n =>
    match g.node? n with
    | none => []
    | some node => node.inputs.filterMap fun input => (g.peer? input).map (⟨·, input⟩)

/-- The components of the nodes in the list that are not covered yet, each with its first node. -/
def componentsFrom (g : Graph) (covered : List NodeId) : List NodeId → List (NodeId × Component)
  | [] => []
  | n :: rest =>
    if n ∈ covered then g.componentsFrom covered rest
    else
      let c := g.component (g.socketAt? n .output).toList
      (n, c) :: g.componentsFrom (covered ++ c.nodes) rest

/-- The components of a graph, each with its first node. -/
def components (g : Graph) : List (NodeId × Component) :=
  g.componentsFrom [] g.nodeIds

end Graph

/-- Solves links one after another, where `types` gives the types of sockets.  A link that cannot be
met is reported and left out. -/
def Solver.solveLinks (types : SocketId → Option Ty) (s : Solver) :
    List Link → Solver × List (Link × TypeError)
  | [] => (s, [])
  | l :: rest =>
    match types l.output, types l.input with
    | some produced, some expected =>
      match s.constrain produced expected with
      | .ok s => s.solveLinks types rest
      | .error e =>
        let (s, failures) := s.solveLinks types rest
        (s, (l, e) :: failures)
    | _, _ => s.solveLinks types rest

namespace Workspace

/-- Types for the inputs of a node: the parameters of its signature, and fresh variables for inputs
beyond them. -/
def inputTypes : List SocketId → List Ty → Supply → List (SocketId × Ty) × Supply
  | [], _, s => ([], s)
  | input :: inputs, t :: params, s =>
    let (types, s) := inputTypes inputs params s
    ((input, t) :: types, s)
  | input :: inputs, [], s =>
    let (t, s) := s.fresh
    let (types, s) := inputTypes inputs [] s
    ((input, t) :: types, s)

/-- A fresh instance of the signature of a node, as parameters and result. -/
def instanceOf (ws : Workspace) (n : NodeId) (node : Node) : (List Ty × Ty) × Supply :=
  let fresh : (List Ty × Ty) × Supply :=
    let (t, s) := ws.supply.fresh
    (([], t), s)
  match node.block, node.signature with
  | .localVar _, _ =>
    match ws.binding? none n with
    | some (t, s) => (([], t), s)
    | none => fresh
  | _, some signature =>
    let (t, s) := signature.instantiate ws.supply
    (t.uncurry, s)
  | .literal ty _, none =>
    if node.untyped.isNone then
      let (t, s) := ty.instantiate ws.supply
      (([], t), s)
    else fresh
  | _, none => fresh

/-- Gives the sockets of a node a fresh instance of its signature. -/
def freshInstance (ws : Workspace) (n : NodeId) : Workspace :=
  match ws.graph.node? n with
  | none => ws
  | some node =>
    let ((params, result), s) := ws.instanceOf n node
    let (types, s) := inputTypes node.inputs params s
    { ws with graph := ws.graph.setTypes (types ++ [(node.output, result)]), supply := s }

/-- Why the nodes in the list that have no signature have none. -/
def untypedErrors (ws : Workspace) (nodes : List NodeId) : List TypeError :=
  nodes.filterMap fun n => (ws.graph.node? n).bind Node.untyped

/-- The failure of a link at a socket. -/
def failureAt? (failures : List (Link × TypeError)) (s : SocketId) : Option TypeError :=
  (failures.find? fun f => f.1.output = s || f.1.input = s).map Prod.snd

def settle (ws : Workspace) (solver : Solver) (failures : List (Link × TypeError))
    (sockets : List SocketId) : Workspace :=
  { ws with graph := sockets.foldl (fun g s =>
      g.modifySocket s fun socket =>
        { socket with
          ty := solver.zonk socket.ty
          state :=
            match failureAt? failures s with
            | some e => .invalid e
            | none => ws.settledState s }) ws.graph }

def invalidate (ws : Workspace) (e : TypeError) (sockets : List SocketId) : Workspace :=
  { ws with graph := sockets.foldl (fun g s =>
      g.modifySocket s fun socket => { socket with state := .invalid e }) ws.graph }

/-- Rebuilds the types of the components of the given sockets, and lists what is wrong in them. -/
def recompute (ws : Workspace) (seeds : List SocketId) : List TypeError × Workspace :=
  let c := ws.graph.component seeds
  let errors := ws.untypedErrors c.nodes
  let ws := c.nodes.foldl freshInstance ws
  match ws.graph.topologicalOrder c.nodes with
  | .error cycle => (errors ++ [.dangling cycle], ws.invalidate (.dangling cycle) c.sockets)
  | .ok order =>
    let (solver, failures) := Solver.solveLinks ws.typeOf? .empty (ws.graph.linksInto order)
    (errors ++ failures.map Prod.snd, ws.settle solver failures c.sockets)

end Workspace

end BlockGraph
