import BlockGraph.Ty.Names
import BlockGraph.Workspace.Recompute

/-!
Nodes and their inputs.

The number of inputs of a node follows its signature.  A node whose signature cannot be found stays
in the graph with the inputs that it has, and its sockets are invalid until the signature is there.
-/

namespace BlockGraph

namespace Graph

/-- Removes the last `count` inputs of a node, and lists the outputs that fed them. -/
def popInputs (g : Graph) (n : NodeId) : Nat → List SocketId × Graph
  | 0 => ([], g)
  | count + 1 =>
    match g.popInput n with
    | .ok (some (_, peer), g) =>
      let (peers, g) := g.popInputs n count
      (peer.toList ++ peers, g)
    | _ => ([], g)

def addInputs (g : Graph) (n : NodeId) : Nat → Supply → Graph × Supply
  | 0, s => (g, s)
  | count + 1, s =>
    let (ty, s) := s.fresh
    match g.addInput n ty with
    | .ok (_, g) => g.addInputs n count s
    | .error _ => (g, s)

end Graph

/-- The first letter name that is not in the list. -/
def unusedName (names : List String) : String :=
  let candidates := (List.range (names.length + 1)).map nthName
  (candidates.find? fun name => name ∉ names).getD (nthName names.length)

/-- Adds as many unused names to a list of names. -/
def addNames : Nat → List String → List String
  | 0, names => names
  | count + 1, names => addNames count (names ++ [unusedName names])

/-- The names of a branch, cut or filled up to the number of fields. -/
def fitBranch (count : Nat) (names : List String) : List String :=
  addNames (count - names.length) (names.take count)

/-- The names of all branches, one list for each variant and one name for each field.  Names that
have a place keep it. -/
def fitBinders : List Variant → List (List String) → List (List String)
  | [], _ => []
  | v :: variants, binders =>
    fitBranch v.fields.length (binders.headD []) :: fitBinders variants binders.tail

namespace Block

/-- A case block with names that fit its type, if the type is known. -/
def syncBinders (r : Registry) : Block → Block
  | caseOf type binders =>
    match r.userType? type with
    | some t => caseOf type (fitBinders t.variants binders)
    | none => caseOf type binders
  | block => block

/-- The variables that come with a block, which are those of the type of a literal. -/
def leaves : Block → List TyVar
  | literal ty _ => ty.leaves
  | _ => []

end Block

namespace Workspace

/-- Sets the number of inputs of a node, and lists the outputs that fed inputs which are gone. -/
def resizeInputs (ws : Workspace) (n : NodeId) (current count : Nat) :
    List SocketId × Workspace :=
  let (displaced, graph) := ws.graph.popInputs n (current - count)
  let (graph, supply) := graph.addInputs n (count - current) ws.supply
  (displaced, { ws with graph, supply })

/-- Finds the signature of a node and fits its inputs and names to it.  Lists the outputs that fed
inputs which are gone. -/
def install (ws : Workspace) (n : NodeId) : List SocketId × Workspace :=
  match ws.graph.node? n with
  | none => ([], ws)
  | some node =>
    let current := node.inputs.length
    let (signature, untyped, count, supply) :=
      match node.block.derive ws.registry ws.supply with
      | .ok (signature, s) => (signature, none, (signature.map TyTerm.arity).getD 0, s)
      | .error fault => (none, some (TypeError.invalidSignature fault), current, ws.supply)
    let graph := ws.graph.modifyNode n fun node =>
      { node with signature, untyped, block := node.block.syncBinders ws.registry }
    { ws with graph, supply }.resizeInputs n current count

/-- Finds the signatures of nodes again, and lists sockets of all components that this touches. -/
def installAll (ws : Workspace) : List NodeId → List SocketId × Workspace
  | [] => ([], ws)
  | n :: rest =>
    let (displaced, ws) := ws.install n
    let (seeds, ws) := ws.installAll rest
    (displaced ++ (ws.graph.socketAt? n .output).toList ++ seeds, ws)

/-- Finds the signatures of nodes again, and rebuilds the components that this touches.  Lists what
is wrong in them. -/
def rebuild (ws : Workspace) (nodes : List NodeId) : List TypeError × Workspace :=
  let (seeds, ws) := ws.installAll nodes
  ws.recompute seeds

/-- Adds a node.  It is added also if its signature cannot be found. -/
def addNode (block : Block) : Edit NodeId := fun ws =>
  let (ty, supply) := (ws.supply.past block.leaves).fresh
  let (n, graph) := ws.graph.insertNode block ty
  let (_, ws) := { ws with graph, supply }.install n
  let (_, ws) := ws.recompute (ws.graph.socketAt? n .output).toList
  .ok n ws

/-- Removes a node, and rebuilds the components that it was connected to. -/
def removeNode (n : NodeId) : Edit (List TypeError) := fun ws =>
  match ws.graph.removeNode n with
  | .error d => .error (.ofDangling d) ws
  | .ok ((_, peers), graph) =>
    let (errors, ws) := { ws with graph }.recompute peers
    .ok errors ws

def setArity (n : NodeId) (items : Nat) : Edit (List TypeError) := fun ws =>
  match ws.graph.node? n with
  | none => .error (.ofDangling (.node n)) ws
  | some node =>
    match node.block with
    | .list _ =>
      let graph := ws.graph.modifyNode n fun node => { node with block := .list items }
      let (displaced, ws) := { ws with graph }.install n
      let (errors, ws) := ws.recompute (displaced ++ [node.output])
      .ok errors ws
    | _ => .error (.fixedArity n) ws

/-- A name that a branch may give to a field. -/
def isBinderName (name : String) : Bool :=
  match name.toList with
  | [] => false
  | first :: rest =>
    (first.isLower || first = '_') && rest.all fun c => c.isAlphanum || c = '_'

/-- Gives a field of a branch of a case node another name. -/
def renameBinder (n : NodeId) (branch field : Nat) (name : String) : Edit String := fun ws =>
  match ws.graph.node? n with
  | none => .error (.ofDangling (.node n)) ws
  | some node =>
    match node.block with
    | .caseOf type binders =>
      match binders[branch]? with
      | none => .error (.unknownVariant type branch) ws
      | some names =>
        if names.length ≤ field then .error (.unknownField type branch field) ws
        else if !isBinderName name then .error (.invalidName name) ws
        else if name ∈ names.eraseIdx field then .error (.binderTaken name) ws
        else
          let binders := binders.set branch (names.set field name)
          let graph := ws.graph.modifyNode n fun node =>
            { node with block := .caseOf type binders }
          let (_, ws) := { ws with graph }.recompute [node.output]
          .ok name ws
    | _ => .error (.wrongKind n) ws

end Workspace

end BlockGraph
