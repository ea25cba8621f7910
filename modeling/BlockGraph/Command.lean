import BlockGraph.Expr.Build
import BlockGraph.Expr.Printer
import BlockGraph.Loading

/-!
Reports on a description.

`check` lists the sockets of every node with their types, `build` gives the expression of a node,
and `types` lists the user types with the signatures that come with them.
-/

namespace BlockGraph

inductive Command where
  | check
  | build (root : String)
  | types

/-- Why there is no report. -/
inductive CommandError where
  | load (error : LoadError)
  | unknownRoot (name : String)

def CommandError.message : CommandError → String
  | load error => error.message
  | unknownRoot name => s!"the workspace has no node named {Text.quote name}"

namespace Report

/-- A text with each of the given lines on a line of its own. -/
def ofLines (lines : List String) : String :=
  String.join (lines.map (· ++ "\n"))

def errorLine (e : TypeError) : String :=
  s!"error: {e.message}"

def place : Role → String
  | .input k => s!"in {k}"
  | .output => "out"

/-- The line of a socket, with its type and what is wrong with it. -/
def socketLine (socket : Socket) : String :=
  let line := s!"  {place socket.role}: {socket.ty.text}"
  match socket.state with
  | .invalid e => s!"{line} (invalid: {e.message})"
  | _ => line

def nodeLines (ws : Workspace) (name : String) (n : NodeId) : List String :=
  match ws.graph.node? n with
  | none => []
  | some node =>
    s!"{name} ({node.block.label})" ::
      (node.sockets.filterMap ws.graph.socket?).map socketLine

/-- The sockets of every node, and what is wrong with the types. -/
def check (l : Loaded) : String :=
  ofLines (l.nodes.flatMap (fun (name, n) => nodeLines l.workspace name n) ++
    l.errors.map errorLine)

/-- The expression of a node, and what went wrong while it was built. -/
def build (l : Loaded) (root : String) : Option String :=
  ((l.nodes.lookup root).bind fun n => l.workspace.graph.socketAt? n .output).map fun s =>
    let built := l.workspace.build s
    ofLines (built.expr.textAt defaultWidth id :: built.errors.map errorLine)

/-- The type of a field in the definition of a type. -/
def fieldText : Option Ty → String
  | none => "_"
  | some (.var v) => (TyTerm.var v : Ty).text
  | some (.lit name []) => (TyTerm.lit name [] : Ty).text
  | some t => s!"({t.text})"

def variantText (v : Variant) : String :=
  " ".intercalate (v.ctor :: v.fields.map fieldText)

def typeLine (t : UserType) : String :=
  let variants := " | ".intercalate (t.variants.map variantText)
  s!"type {t.name} = {variants}"

def signatureLine (name : String) (signature : Option (Ty × Supply)) : Option String :=
  signature.map fun (t, _) => s!"{name} : {t.text}"

/-- The user types, the signatures of their constructors, and those of their case blocks. -/
def types (ws : Workspace) : String :=
  let r := ws.registry
  ofLines (r.types.map typeLine ++
    (r.ctors.filterMap fun (_, v) =>
      signatureLine v.ctor (r.ctorSignature? v.ctor ws.supply)) ++
    r.types.filterMap fun t =>
      signatureLine s!"case {t.name}" (r.caseSignature? t.name ws.supply))

end Report

namespace Command

/-- The command of a name.  The root is the node that an expression is asked of, so only `build` has
one. -/
def ofName? (name : String) (root : Option String) : Option Command :=
  match name, root with
  | "check", none => some check
  | "build", some root => some (build root)
  | "types", none => some types
  | _, _ => none

/-- The report that a command asks of the text of a file. -/
def run (c : Command) (source : String) : Except CommandError String :=
  match Loaded.ofText source with
  | .error e => .error (.load e)
  | .ok l =>
    match c with
    | check => .ok (Report.check l)
    | types => .ok (Report.types l.workspace)
    | build root =>
      match Report.build l root with
      | some s => .ok s
      | none => .error (.unknownRoot root)

end Command

end BlockGraph
