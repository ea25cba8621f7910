import BlockGraph.Workspace.Recompute

/-!
Checking a workspace from scratch.

`validate` finds every signature again and solves all links, and takes nothing from the types and
states that the sockets hold.  It changes nothing.
-/

namespace BlockGraph.Workspace

/-- The parameters and the result of a node, from its block alone, and what is wrong with it. -/
def derived (ws : Workspace) (n : NodeId) (node : Node) (s : Supply) :
    List TypeError × (List Ty × Ty) × Supply :=
  match node.block.derive ws.registry s with
  | .ok (some signature, s) =>
    let (t, s) := signature.instantiate s
    if signature.arity = node.inputs.length then ([], t.uncurry, s)
    else
      let fault := .inputCount node.block.label signature.arity n node.inputs.length
      ([.invalidSignature fault], t.uncurry, s)
  | .ok (none, s) =>
    match node.block with
    | .literal ty _ =>
      let (t, s) := ty.instantiate s
      ([], ([], t), s)
    | _ =>
      let (t, s) := s.fresh
      ([], ([], t), s)
  | .error fault =>
    let (t, s) := s.fresh
    ([.invalidSignature fault], ([], t), s)

/-- The result of a node where it stands: a pattern variable has the type that it is bound with. -/
def inScope (ws : Workspace) (n : NodeId) (node : Node) (result : Ty) (s : Supply) :
    List TypeError × Ty × Supply :=
  match node.block with
  | .localVar name =>
    match bindingSite? ws.graph none n with
    | some site =>
      let (t, s) := siteType ws.registry site s
      ([], t, s)
    | none => ([.invalidSignature (.unboundLocal name)], result, s)
  | _ => ([], result, s)

/-- Types for the sockets of nodes, from their blocks alone, and what is wrong with the nodes. -/
def deriveAll (ws : Workspace) : List (NodeId × Node) → Supply →
    List TypeError × List (SocketId × Ty)
  | [], _ => ([], [])
  | (n, node) :: rest, s =>
    let (faults, (params, result), s) := ws.derived n node s
    let (unbound, result, s) := ws.inScope n node result s
    let (types, s) := inputTypes node.inputs params s
    let (errors, more) := ws.deriveAll rest s
    (faults ++ unbound ++ errors, types ++ (node.output, result) :: more)

/-- Solves the links of components one after another.  A component with a cycle is reported and left
out. -/
def solveComponents (g : Graph) (types : SocketId → Option Ty) (solver : Solver) :
    List Component → List TypeError
  | [] => []
  | c :: rest =>
    match g.topologicalOrder c.nodes with
    | .error cycle => .dangling cycle :: solveComponents g types solver rest
    | .ok order =>
      let (solver, failures) := solver.solveLinks types (g.linksInto order)
      failures.map Prod.snd ++ solveComponents g types solver rest

/-- All that is wrong with a workspace. -/
def validate (ws : Workspace) : List TypeError :=
  let all := ws.deriveAll ws.graph.nodes.entries ws.supply
  all.1 ++ solveComponents ws.graph (fun s => all.2.lookup s) .empty
    (ws.graph.components.map Prod.snd)

end BlockGraph.Workspace
