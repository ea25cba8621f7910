import BlockGraph.Expr.Basic
import BlockGraph.Workspace.Basic

/-!
The expression of an output.

The expression is built from an output towards the inputs that feed its node.  A gap never stops
this.  An input without a link, a socket that is gone and a cycle all become a hole, which is tagged
with the socket where it was found.  All but the first are reported as well, and so is a pattern
variable outside every branch that binds it.
-/

namespace BlockGraph

/-- An expression, and what went wrong while it was built. -/
structure Built where
  expr : Expr String
  errors : List TypeError

namespace Build

/-- What has been reported so far, and the variables that are still unused. -/
structure Progress where
  errors : List TypeError := []
  supply : Supply

abbrev Step (α : Type) := StateM Progress α

def report (e : TypeError) : Step Unit := fun p => ((), { p with errors := p.errors ++ [e] })

def freshTy : Step Ty := fun p =>
  let (t, supply) := p.supply.fresh
  (t, { p with supply })

def hole (s : SocketId) : Expr String :=
  .var (some s) Expr.undefName

def reportHole (e : TypeError) (s : SocketId) : Step (Expr String) := fun p =>
  (hole s, (report e p).2)

/-- The names that the branches around a place bind, the innermost branch first. -/
abbrev Scope := List (List String)

/-- How an output is built within a scope. -/
abbrev Builder := Scope → SocketId → Step (Expr String)

/-- The expression of an input: that of the output which feeds it, or a hole. -/
def input (g : Graph) (build : Builder) (scope : Scope) (s : SocketId) : Step (Expr String) :=
  match g.peer? s with
  | some output => do return (← build scope output).retag (some s)
  | none => return hole s

def inputs (g : Graph) (build : Builder) (scope : Scope) : List SocketId → Step (List (Expr String))
  | [] => return []
  | s :: rest => do
    let e ← input g build scope s
    return e :: (← inputs g build scope rest)

/-- Binds names around a body, the first name innermost.  Each name comes with the type of its
field, where that is set. -/
def bindNames : List (String × Option Ty) → Expr String → Step (Expr String)
  | [], body => return body
  | (name, some ty) :: rest, body => bindNames rest (.bind body.tag name ty body)
  | (name, none) :: rest, body => do
    let ty ← freshTy
    bindNames rest (.bind body.tag name ty body)

/-- The names of a branch, each with the type of its field. -/
def typedNames (r : Registry) (type : String) (branch : Nat) (names : List String) :
    List (String × Option Ty) :=
  names.mapIdx fun field name => (name, r.fieldType? type branch field)

def arm (g : Graph) (r : Registry) (build : Builder) (scope : Scope) (type : String)
    (names : List String) (branch : Nat) (s : SocketId) : Step (Expr String) :=
  match g.peer? s with
  | none => return hole s
  | some _ => do
    let body ← input g build (names :: scope) s
    bindNames (typedNames r type branch names) body

/-- The arms of a distinction of cases, the first of which has the given position. -/
def arms (g : Graph) (r : Registry) (build : Builder) (scope : Scope) (type : String)
    (binders : List (List String)) : Nat → List SocketId → Step (List (Expr String))
  | _, [] => return []
  | branch, s :: rest => do
    let e ← arm g r build scope type (binders.getD branch []) branch s
    return e :: (← arms g r build scope type binders (branch + 1) rest)

def joinArms (output : SocketId) : List (Expr String) → Expr String
  | [] => hole output
  | [e] => e
  | e :: rest => (Expr.var (some output) Registry.branchName).applyAll [e, joinArms output rest]

/-- The value that a distinction of cases looks at, marked with the name of its type, or that name
alone if no value is given. -/
def scrutinee (g : Graph) (build : Builder) (scope : Scope) (type : String)
    (output s : SocketId) : Step (Expr String) :=
  let typeName : Expr String := .lit (some output) type
  match g.peer? s with
  | none => return typeName
  | some _ => do
    let value ← input g build scope s
    return (Expr.var (some output) Registry.scrutineeName).applyAll [value, typeName]

def caseExpr (g : Graph) (r : Registry) (build : Builder) (scope : Scope) (type : String)
    (binders : List (List String)) (output : SocketId) : List SocketId → Step (Expr String)
  | [] => return hole output
  | s :: branches => do
    let value ← scrutinee g build scope type output s
    let es ← arms g r build scope type binders 0 branches
    return (Expr.var (some output) Registry.evaluateName).applyAll [value, joinArms output es]

/-- The expression of a node, where `build` gives those of the outputs that feed it. -/
def node (g : Graph) (r : Registry) (build : Builder) (scope : Scope) (output : SocketId)
    (node : Node) : Step (Expr String) :=
  let apply (name : String) : Step (Expr String) := do
    let args ← inputs g build scope node.inputs
    return (Expr.var (some output) name).applyAll args
  match node.block with
  | .literal _ value => return .lit (some output) value
  | .function name => apply name
  | .ctor name => apply name
  | .list _ => apply Expr.listName
  | .localVar name =>
    if scope.any (·.contains name) then return .var (some output) name
    else reportHole (.invalidSignature (.unboundLocal name)) output
  | .caseOf type binders => caseExpr g r build scope type binders output node.inputs

/-- The expression of the node that a socket belongs to.  The active nodes are those on the path
from where the building began, so coming to one of them again closes a cycle. -/
def output (g : Graph) (r : Registry) (active : List NodeId) (scope : Scope) (s : SocketId) :
    Step (Expr String) :=
  match g.socket? s with
  | none => reportHole (.dangling (.socket s)) s
  | some socket =>
    match _hn : g.node? socket.node with
    | none => reportHole (.dangling (.node socket.node)) s
    | some block =>
      if _ha : socket.node ∈ active then reportHole (.dangling (.cycle socket.node)) s
      else do
        let e ← node g r (fun scope s => output g r (socket.node :: active) scope s) scope s block
        return e.retag (some s)
termination_by (Search.unseen g.nodeIds active).length
decreasing_by exact Search.length_unseen_cons_lt (Slots.mem_keys_of_get? _hn) _ha

end Build

/-- Builds the expression of a socket.  That of an input is the expression of its node. -/
def Workspace.build (ws : Workspace) (root : SocketId) : Built :=
  let (expr, progress) := Build.output ws.graph ws.registry [] [] root { supply := ws.supply }
  { expr, errors := progress.errors }

end BlockGraph
