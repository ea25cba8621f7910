import BlockGraph.Workspace.Nodes

/-!
Edits of the registry, and what they do to nodes.

Giving something another name changes that name wherever it stands, and leaves links and types as
they are.  An edit that changes what a name stands for finds the signatures of the nodes that depend
on it again, and rebuilds their components.
-/

namespace BlockGraph

namespace Block

def renameType (old new : String) : Block → Block
  | literal ty value => literal (ty.renameLiteral old new) value
  | caseOf type binders => caseOf (if type = old then new else type) binders
  | block => block

def renameCtor (old new : String) : Block → Block
  | ctor name => ctor (if name = old then new else name)
  | block => block

end Block

def Node.renameType (old new : String) (node : Node) : Node :=
  { node with
    block := node.block.renameType old new
    signature := node.signature.map (TyTerm.renameLiteral old new) }

def Socket.renameType (old new : String) (socket : Socket) : Socket :=
  { socket with ty := socket.ty.renameLiteral old new }

namespace Graph

/-- An edit of a graph that fails where it looks for a node or a socket that is not there. -/
abbrev Edit (α : Type) := EStateM Dangling Graph α

/-- Gives a type another name in the given nodes one after another, and lists their sockets. -/
def renameInNodes (old new : String) : List NodeId → Edit (List SocketId)
  | [], g => .ok [] g
  | n :: rest, g =>
    match g.node? n with
    | none => .error (.node n) g
    | some node =>
      match renameInNodes old new rest (g.modifyNode n (Node.renameType old new)) with
      | .ok sockets g => .ok (node.sockets ++ sockets) g
      | .error d g => .error d g

/-- Gives a type another name in the types of the given sockets one after another. -/
def renameInSockets (old new : String) : List SocketId → Edit Unit
  | [], g => .ok () g
  | s :: rest, g =>
    match g.socket? s with
    | none => .error (.socket s) g
    | some _ => renameInSockets old new rest (g.modifySocket s (Socket.renameType old new))

/-- Gives a type another name in all nodes, and then in the sockets that they list.  If a socket is
not there, what has been renamed before it stays so. -/
def renameType (old new : String) : Edit Unit := fun g =>
  match renameInNodes old new g.nodeIds g with
  | .ok sockets g => renameInSockets old new sockets g
  | .error d g => .error d g

def renameCtor (g : Graph) (old new : String) : Graph :=
  { g with nodes := g.nodes.map fun node => { node with block := node.block.renameCtor old new } }

end Graph

namespace Workspace

/-- The nodes that satisfy a condition, in ascending order. -/
def nodesWhere (ws : Workspace) (p : Node → Bool) : List NodeId :=
  (ws.graph.nodes.entries.filter fun e => p e.2).map Prod.fst

def dependents (ws : Workspace) (type : String) : List NodeId :=
  ws.nodesWhere fun node => node.block.dependsOn ws.registry type

/-- Finds the signatures of the nodes without one again. -/
def retryUntyped (ws : Workspace) : List TypeError × Workspace :=
  ws.rebuild (ws.nodesWhere fun node => node.untyped.isSome)

/-- The variables of the fields of variants. -/
def fieldLeaves (variants : List Variant) : List TyVar :=
  TyTerm.leavesAll (variants.flatMap fun v => v.fields.filterMap id)

/-- Defines a user type under a free name near the candidate.  Nodes without a signature may have
been waiting for it. -/
def defineType (candidate : String) (variants : List Variant) : Edit String := fun ws =>
  match onRegistry (Registry.defineType candidate variants) ws with
  | .error e ws => .error e ws
  | .ok name ws =>
    .ok name { ws with supply := ws.supply.past (fieldLeaves variants) }.retryUntyped.2

/-- Defines a function, or gives a new signature to it.  The nodes that apply it are rebuilt, and so
are the nodes without a signature. -/
def defineFunction (name : String) (ty : Ty) : Edit (List TypeError) := fun ws =>
  match onRegistry (Registry.defineFunction name ty) ws with
  | .error e ws => .error e ws
  | .ok () ws =>
    let affected := ws.nodesWhere fun node =>
      node.untyped.isSome ||
        match node.block with
        | .function applied => applied = name
        | _ => false
    let (errors, ws) := { ws with supply := ws.supply.past ty.leaves }.rebuild affected
    .ok errors ws

/-- Gives a user type another name wherever it stands.  What sockets have been marked invalid with
is kept as it was said. -/
def renameType (old candidate : String) : Edit String := fun ws =>
  match onRegistry (Registry.renameType old candidate) ws with
  | .error e ws => .error e ws
  | .ok new ws =>
    if new = old then .ok new ws
    else
      match Graph.renameType old new ws.graph with
      | .ok () graph => .ok new { ws with graph }.retryUntyped.2
      | .error d graph => .error (.ofDangling d) { ws with graph }

/-- Gives a constructor another name, also in the nodes that apply it. -/
def renameCtor (old candidate : String) : Edit String := fun ws =>
  match onRegistry (Registry.renameCtor old candidate) ws with
  | .error e ws => .error e ws
  | .ok new ws => .ok new { ws with graph := ws.graph.renameCtor old new }

/-- Whether a field of the type mentions another type. -/
def fieldMentions (name : String) (t : UserType) : Bool :=
  t.variants.any fun v => v.fields.any fun f => f.any fun ty => ty.mentions name

/-- Removes a user type.  The nodes that depended on it stay without a signature, and are listed. -/
def deleteType (name : String) : Edit (List NodeId) := fun ws =>
  let referrers := (ws.registry.types.filter fun t => t.name ≠ name && fieldMentions name t).map
    UserType.name
  let dependents := ws.dependents name
  let affected := ws.graph.nodeIds.filter fun n =>
    n ∈ dependents || referrers.any fun t => n ∈ ws.dependents t
  match onRegistry (Registry.deleteType name) ws with
  | .error e ws => .error e ws
  | .ok _ ws =>
    let (_, ws) := ws.rebuild affected
    .ok (dependents.filter fun n => ((ws.graph.node? n).bind Node.untyped).isSome) ws

/-- An edit of a user type after which the nodes that depended on the type are rebuilt, with
variables from the given supply. -/
def editType {α : Type} (name : String) (edit : Registry.Edit α) (supply : Supply) :
    Edit (List TypeError) := fun ws =>
  let dependents := ws.dependents name
  match onRegistry edit ws with
  | .error e ws => .error e ws
  | .ok _ ws =>
    let (errors, ws) := { ws with supply }.rebuild dependents
    .ok errors ws

def setVariantCount (name : String) (count : Nat) : Edit (List TypeError) := fun ws =>
  editType name (Registry.setVariantCount name count) ws.supply ws

def setFieldCount (name : String) (variant count : Nat) : Edit (List TypeError) := fun ws =>
  editType name (Registry.setFieldCount name variant count) ws.supply ws

/-- Sets the type of a field, or takes it away.  Only known types may stand in it. -/
def setFieldType (name : String) (variant field : Nat) (ty : Option Ty) : Edit (List TypeError) :=
  fun ws =>
  match ty.bind ws.registry.unknownIn? with
  | some unknown => .error (.unknownType unknown) ws
  | none =>
    editType name (Registry.setFieldType name variant field ty)
      (ws.supply.past (ty.elim [] TyTerm.leaves)) ws

def clear : Edit Unit := fun ws =>
  .ok () { ws with graph := {}, registry := .withPrelude }

end Workspace

end BlockGraph
