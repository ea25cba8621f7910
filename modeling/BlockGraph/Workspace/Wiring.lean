import BlockGraph.Workspace.Recompute

/-!
Making and removing links.

A new link only adds an equation.  `connect` unifies the types at its ends, together with the types
of the pattern variables that it brings into scope, and carries the result out in both components.
`attach` leaves types alone; after a number of attached links, `resolveAll` rebuilds everything.
-/

namespace BlockGraph.Workspace

/-- Whether an output may feed an input, types apart.  Neither may be linked yet, and where
`acyclic` is asked for, no node may come to depend on itself. -/
def checkLink (ws : Workspace) (l : Link) (acyclic : Bool) : Except EditError Unit :=
  match ws.graph.socket? l.output with
  | none => .error (.ofDangling (.socket l.output))
  | some producer =>
    if producer.role ≠ .output then .error (.expectedOutput l.output)
    else
      match ws.graph.socket? l.input with
      | none => .error (.ofDangling (.socket l.input))
      | some consumer =>
        if consumer.role = .output then .error (.expectedInput l.input)
        else if (ws.graph.peer? l.input).isSome then .error (.occupied l.input)
        else if (ws.graph.peer? l.output).isSome then .error (.occupied l.output)
        else if acyclic && ws.graph.wouldCycle producer.node consumer.node then
          .error (.ofDangling (.cycle producer.node))
        else .ok ()

/-- Makes the types of sockets equal to given types, one after another. -/
def unifyScope (ws : Workspace) (σ : Subst) : List (SocketId × Ty) → Except TypeError Subst
  | [] => .ok σ
  | (s, t) :: rest =>
    match ws.typeOf? s with
    | none => .error (.dangling (.socket s))
    | some u =>
      match σ.unify u t with
      | .ok σ => ws.unifyScope σ rest
      | .error e => .error e

/-- The most general types under which an output feeds an input, as a substitution for the
component that the link would make. -/
def solveLink (ws : Workspace) (l : Link) : Except TypeError (Subst × Component × Supply) :=
  match ws.typeOf? l.output, ws.typeOf? l.input with
  | none, _ => .error (.dangling (.socket l.output))
  | _, none => .error (.dangling (.socket l.input))
  | some produced, some expected =>
    match unify produced expected with
    | .error e => .error e
    | .ok σ =>
      let c := ws.graph.component [l.output, l.input]
      let (constraints, s) := scopeConstraints ws.graph ws.registry (some l) c.nodes ws.supply
      match ws.unifyScope σ constraints with
      | .error e => .error e
      | .ok σ => .ok (σ, c, s)

/-- Whether an output can be connected to an input as things are. -/
def isConnectable (ws : Workspace) (l : Link) : Bool :=
  (ws.checkLink l true).toBool && (ws.solveLink l).toBool

/-- Carries a substitution out in the types of sockets. -/
def applyTo (g : Graph) (σ : Subst) (sockets : List SocketId) : Graph :=
  sockets.foldl
    (fun g s => g.modifySocket s fun socket => { socket with ty := σ.apply socket.ty }) g

def settleStates (ws : Workspace) (sockets : List SocketId) : Workspace :=
  { ws with graph := sockets.foldl (fun g s =>
      g.modifySocket s fun socket => { socket with state := ws.settledState s }) ws.graph }

def connect (output input : SocketId) : Edit Unit := fun ws =>
  let l : Link := ⟨output, input⟩
  match ws.checkLink l true with
  | .error e => .error e ws
  | .ok () =>
    match ws.solveLink l with
    | .error e => .error (.type e) ws
    | .ok (σ, c, supply) =>
      let graph := (applyTo ws.graph σ c.sockets).wire output input
      .ok () ({ ws with graph, supply }.settleStates [output, input])

/-- Removes the link from an output to an input, and rebuilds both sides. -/
def disconnect (output input : SocketId) : Edit (List TypeError) := fun ws =>
  match ws.graph.unwire? output input with
  | none => .error (.notConnected output input) ws
  | some graph =>
    let (errors, ws) := { ws with graph }.recompute [output, input]
    .ok errors ws

/-- Links an output to an input without a look at types or cycles. -/
def attach (output input : SocketId) : Edit Unit := fun ws =>
  match ws.checkLink ⟨output, input⟩ false with
  | .error e => .error e ws
  | .ok () => .ok () { ws with graph := ws.graph.wire output input }

/-- Rebuilds the components of the outputs of nodes, one after another. -/
def recomputeEach (ws : Workspace) : List NodeId → List TypeError × Workspace
  | [] => ([], ws)
  | n :: rest =>
    let (errors, ws) := ws.recompute (ws.graph.socketAt? n .output).toList
    let (more, ws) := ws.recomputeEach rest
    (errors ++ more, ws)

/-- Rebuilds every component. -/
def resolveAll (ws : Workspace) : List TypeError × Workspace :=
  ws.recomputeEach (ws.graph.components.map Prod.fst)

end BlockGraph.Workspace
