import BlockGraph.Error
import BlockGraph.Graph.Block
import BlockGraph.Graph.Links
import BlockGraph.Graph.Search

/-!
Graphs of nodes, sockets and links.

A node has one output and any number of inputs, which are sockets with a type and a state.  A link
leads from an output to an input.  The graph itself puts no condition on links; at most one link at
a socket, and no cycles, are matters of the edits that are made to it.
-/

namespace BlockGraph

/-- The place of a socket at its node. -/
inductive Role where
  /-- The input at a position, counted from zero. -/
  | input (position : Nat)
  | output
  deriving DecidableEq

/-- Whether the type of a socket is in order. -/
inductive SocketState where
  /-- The socket is not connected. -/
  | unbound
  /-- The socket is connected, and its type agrees with the other end. -/
  | bound
  /-- The type of the socket could not be made to agree. -/
  | invalid (error : TypeError)
  deriving DecidableEq

structure Socket where
  node : NodeId
  role : Role
  ty : Ty
  state : SocketState := .unbound

structure Node where
  block : Block
  /-- The general signature that the sockets are an instance of.  A literal has none. -/
  signature : Option Ty := none
  /-- Why there is no signature, if it could not be found. -/
  untyped : Option TypeError := none
  inputs : List SocketId := []
  output : SocketId

namespace Node

def sockets (n : Node) : List SocketId :=
  n.inputs ++ [n.output]

end Node

/-- Sockets and nodes that hang together, both in ascending order. -/
structure Component where
  nodes : List NodeId
  sockets : List SocketId

structure Graph where
  nodes : Slots Node := {}
  sockets : Slots Socket := {}
  links : Links := {}

namespace Graph

/-! ## Looking up -/

def node? (g : Graph) (n : NodeId) : Option Node :=
  g.nodes.get? n

def socket? (g : Graph) (s : SocketId) : Option Socket :=
  g.sockets.get? s

def nodeIds (g : Graph) : List NodeId :=
  g.nodes.keys

/-- The socket at a place of a node. -/
def socketAt? (g : Graph) (n : NodeId) : Role → Option SocketId
  | .output => (g.node? n).map Node.output
  | .input k => (g.node? n).bind fun node => node.inputs[k]?

def owner? (g : Graph) (s : SocketId) : Option NodeId :=
  (g.socket? s).map Socket.node

/-- The other ends of the links at a socket: first where its outgoing links lead, then where its
incoming links come from, and of each kind the newest link first. -/
def neighbours (g : Graph) (s : SocketId) : List SocketId :=
  g.links.inputsOf s ++ g.links.outputsOf s

def peer? (g : Graph) (s : SocketId) : Option SocketId :=
  (g.neighbours s).head?

def wires (g : Graph) : List Link :=
  g.links.byNumber

/-! ## Changing -/

def modifyNode (g : Graph) (n : NodeId) (f : Node → Node) : Graph :=
  { g with nodes := g.nodes.modify n f }

def modifySocket (g : Graph) (s : SocketId) (f : Socket → Socket) : Graph :=
  { g with sockets := g.sockets.modify s f }

/-- Adds a node without inputs, with an output of the given type. -/
def insertNode (g : Graph) (block : Block) (ty : Ty) : NodeId × Graph :=
  let n := g.nodes.numbers.take.1
  let (output, sockets) := g.sockets.insert { node := n, role := .output, ty }
  let (n, nodes) := g.nodes.insert { block, output }
  (n, { g with nodes, sockets })

/-- Adds an input of the given type after the inputs that a node has. -/
def addInput (g : Graph) (n : NodeId) (ty : Ty) : Except Dangling (SocketId × Graph) :=
  match g.node? n with
  | none => .error (.node n)
  | some node =>
    let (s, sockets) := g.sockets.insert { node := n, role := .input node.inputs.length, ty }
    .ok (s, { g with sockets }.modifyNode n fun node => { node with inputs := node.inputs ++ [s] })

def removeLinks (g : Graph) (numbers : List Nat) : Graph :=
  { g with links := numbers.foldl Links.remove g.links }

/-- Removes a socket and the links at it, the outgoing ones first and the newest first. -/
def removeSocket (g : Graph) (s : SocketId) : Graph :=
  { g.removeLinks (g.links.numbersAt s) with sockets := g.sockets.recycle s }

/-- Removes the last input of a node, and gives it with the socket that was linked to it.  There is
nothing to remove at a node without inputs. -/
def popInput (g : Graph) (n : NodeId) :
    Except Dangling (Option (SocketId × Option SocketId) × Graph) :=
  match g.node? n with
  | none => .error (.node n)
  | some node =>
    match node.inputs.getLast? with
    | none => .ok (none, g)
    | some s =>
      let g' := g.modifyNode n fun node => { node with inputs := node.inputs.dropLast }
      .ok (some (s, g.peer? s), g'.removeSocket s)

/-- Removes sockets one after another, and lists the sockets that were linked to them. -/
def removeSockets (g : Graph) : List SocketId → List SocketId × Graph
  | [] => ([], g)
  | s :: rest =>
    let (peers, g') := (g.removeSocket s).removeSockets rest
    ((g.peer? s).toList ++ peers, g')

/-- Removes a node and its sockets, and gives it with the sockets that were linked to it. -/
def removeNode (g : Graph) (n : NodeId) : Except Dangling ((Node × List SocketId) × Graph) :=
  match g.node? n with
  | none => .error (.node n)
  | some node =>
    let (peers, g) := { g with nodes := g.nodes.erase n }.removeSockets node.sockets
    .ok ((node, peers), g)

def wire (g : Graph) (output input : SocketId) : Graph :=
  { g with links := g.links.insert ⟨output, input⟩ }

/-- Removes the newest link from an output to an input, if there is one. -/
def unwire? (g : Graph) (output input : SocketId) : Option Graph :=
  (g.links.numberOf? ⟨output, input⟩).map fun k => g.removeLinks [k]

/-! ## Components and order -/

/-- The nodes at the other ends of the links of a node. -/
def linkedNodes (g : Graph) (n : NodeId) : List NodeId :=
  (((g.node? n).elim [] Node.sockets).flatMap g.neighbours).filterMap g.owner?

/-- All that hangs together with some of the given sockets.  Numbers that are not in use are
ignored.  The sockets of a node hang together, so it is enough to go from node to node. -/
def component (g : Graph) (seeds : List SocketId) : Component :=
  let reached := Search.reach g.linkedNodes g.nodeIds (seeds.filterMap g.owner?) []
  { nodes := g.nodeIds.filter fun n => n ∈ reached
    sockets := (g.sockets.entries.filter fun e => e.2.node ∈ reached).map Prod.fst }

/-- Which nodes feed which, over the nodes that satisfy a condition. -/
def dependencies (g : Graph) (included : NodeId → Bool) : Search.Digraph where
  vertices := g.nodeIds.filter included
  edges := firsts (g.wires.filterMap fun l =>
    match g.owner? l.output, g.owner? l.input with
    | some producer, some consumer =>
      if included producer && included consumer then some (producer, consumer) else none
    | _, _ => none)

/-- Whether a node would depend on itself if `producer` fed `consumer`. -/
def wouldCycle (g : Graph) (producer consumer : NodeId) : Bool :=
  let deps := g.dependencies fun _ => true
  producer = consumer || producer ∈ Search.reach deps.successors deps.vertices [consumer] []

/-- The nodes of a set, every one after those that feed it. -/
def topologicalOrder (g : Graph) (nodes : List NodeId) : Except Dangling (List NodeId) :=
  match (g.dependencies fun n => n ∈ nodes).order with
  | .ok list => .ok list
  | .error n => .error (.cycle n)

end Graph

end BlockGraph
