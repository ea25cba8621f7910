import BlockGraph.Graph.Basic
import BlockGraph.Registry.Edit
import BlockGraph.Subst

/-!
Workspaces.

A workspace is a graph together with the registry that its nodes are typed by, and a supply of
variables for the types of its sockets.  A type that comes from outside is stored as it is, and the
supply goes past its variables, so no socket gets one of them later.
-/

namespace BlockGraph

structure Workspace where
  graph : Graph := {}
  registry : Registry := .withPrelude
  supply : Supply := Registry.preludeSupply

namespace Workspace

def empty : Workspace := {}

/-- An edit of a workspace that gives an `α` if it is not refused.  A refused edit hands on a
workspace too, so that it can be said what it leaves behind. -/
abbrev Edit (α : Type) := EStateM EditError Workspace α

/-- An edit of the registry as an edit of the workspace. -/
def onRegistry {α : Type} (edit : Registry.Edit α) : Edit α := fun ws =>
  match edit ws.registry with
  | .ok a registry => .ok a { ws with registry }
  | .error e registry => .error e { ws with registry }

/-! ## Looking up -/

def typeOf? (ws : Workspace) (s : SocketId) : Option Ty :=
  (ws.graph.socket? s).map Socket.ty

/-- Why the node of a socket has no signature, if it has none. -/
def untyped? (ws : Workspace) (s : SocketId) : Option TypeError :=
  ((ws.graph.owner? s).bind ws.graph.node?).bind Node.untyped

/-- The state of a socket whose type agrees with its links. -/
def settledState (ws : Workspace) (s : SocketId) : SocketState :=
  match ws.untyped? s, ws.graph.peer? s with
  | some e, _ => .invalid e
  | none, some _ => .bound
  | none, none => .unbound

/-- The invalid sockets, node by node, with what is wrong with each. -/
def invalidSockets (ws : Workspace) : List (SocketId × TypeError) :=
  ws.graph.nodes.entries.flatMap fun (_, node) =>
    node.sockets.filterMap fun s =>
      match (ws.graph.socket? s).map Socket.state with
      | some (.invalid e) => some (s, e)
      | _ => none

end Workspace

end BlockGraph
