import BlockGraph.Description
import BlockGraph.Text.Blank
import BlockGraph.Ty.Reader
import BlockGraph.Workspace.Definitions
import BlockGraph.Workspace.Validate
import BlockGraph.Workspace.Wiring

/-!
Workspaces from descriptions.

Types come first, then functions, nodes and links.  Links are attached as they are, and all types
are worked out once at the end.  What is then wrong with the types is no reason to refuse the
description; it comes with the workspace.
-/

namespace BlockGraph

/-- Why a description does not give a workspace. -/
inductive LoadError where
  /-- The text is not a description. -/
  | malformed
  /-- A type cannot be read. -/
  | unreadable (context : String) (error : ReadError)
  /-- A tree is not a type. -/
  | illFormed (context : String) (error : TypeError)
  | refused (error : EditError)
  | nameTaken (name : String)
  | unknownNode (name : String)
  | missingInput (node : String) (input : Nat)

def LoadError.message : LoadError → String
  | malformed => "the text does not describe a workspace"
  | unreadable context error => s!"in {context}: {error.message}"
  | illFormed context error => s!"in {context}: {error.message}"
  | refused error => error.message
  | nameTaken name => s!"the type name {Text.quote name} is already taken"
  | unknownNode name => s!"unknown node {Text.quote name}"
  | missingInput node input => s!"the node {Text.quote node} has no input {input}"

/-- A workspace with the nodes of its description by name, and all that is wrong with its types. -/
structure Loaded where
  workspace : Workspace
  nodes : List (String × NodeId)
  errors : List TypeError

namespace Loading

def attempt {α : Type} (edit : Workspace.Edit α) (ws : Workspace) :
    Except LoadError (α × Workspace) :=
  match edit ws with
  | .ok a ws => .ok (a, ws)
  | .error e _ => .error (.refused e)

/-- Reads a type that is written in the given place. -/
def readType (context source : String) (s : Supply) : Except LoadError (Ty × Supply) :=
  match NamedTy.read source with
  | .ok t => .ok (t.instantiate s)
  | .error e => .error (.unreadable context e)

/-- The type of a field.  A blank text leaves it unset. -/
def field (context : String) (s : Supply) : DescribedField → Except LoadError (Option Ty × Supply)
  | .text source =>
    if Text.allBlank source then .ok (none, s)
    else (readType context source s).map fun (t, s) => (some t, s)
  | .tree tree =>
    match tree.toNamed with
    | .ok t =>
      let (t, s) := t.instantiate s
      .ok (some t, s)
    | .error e => .error (.illFormed context e)

def fields (context : String) :
    List DescribedField → Supply → Except LoadError (List (Option Ty) × Supply)
  | [], s => .ok ([], s)
  | f :: rest, s => do
    let (t, s) ← field context s f
    let (ts, s) ← fields context rest s
    return (t :: ts, s)

def variants (type : String) :
    List DescribedVariant → Supply → Except LoadError (List Variant × Supply)
  | [], s => .ok ([], s)
  | v :: rest, s => do
    let (fs, s) ← fields s!"{type}.{v.ctor}" v.fields s
    let (vs, s) ← variants type rest s
    return ({ ctor := v.ctor, fields := fs } :: vs, s)

/-- Defines the described types, each of which must get the name that is given to it. -/
def types : List DescribedType → Workspace → Except LoadError Workspace
  | [], ws => .ok ws
  | t :: rest, ws => do
    let (vs, _) ← variants t.name t.variants ws.supply
    let (name, ws) ← attempt (Workspace.defineType t.name vs) ws
    if name = t.name then types rest ws else .error (.nameTaken t.name)

def functions : List (String × String) → Workspace → Except LoadError Workspace
  | [], ws => .ok ws
  | (name, source) :: rest, ws => do
    let (t, _) ← readType name source ws.supply
    let (_, ws) ← attempt (Workspace.defineFunction name t) ws
    functions rest ws

/-- The block of a described node, and the names that are given to fields of its branches. -/
def block (name : String) (s : Supply) :
    DescribedNode → Except LoadError (Block × List (List String))
  | .literal type value => (readType name type s).map fun (t, _) => (.literal t value, [])
  | .function name => .ok (.function name, [])
  | .ctor name => .ok (.ctor name, [])
  | .caseOf type binders => .ok (.caseOf type [], binders)
  | .list items => .ok (.list items, [])
  | .localVar name => .ok (.localVar name, [])

/-- Gives names to the fields of a branch, from the field at `place` on. -/
def branch (n : NodeId) (branch place : Nat) :
    List String → Workspace → Except LoadError Workspace
  | [], ws => .ok ws
  | name :: rest, ws => do
    let (_, ws) ← attempt (Workspace.renameBinder n branch place name) ws
    Loading.branch n branch (place + 1) rest ws

/-- Gives names to the fields of branches, from the branch at `place` on. -/
def branches (n : NodeId) (place : Nat) :
    List (List String) → Workspace → Except LoadError Workspace
  | [], ws => .ok ws
  | names :: rest, ws => do
    let ws ← branch n place 0 names ws
    branches n (place + 1) rest ws

def nodes : List (String × DescribedNode) → Workspace →
    Except LoadError (List (String × NodeId) × Workspace)
  | [], ws => .ok ([], ws)
  | (name, node) :: rest, ws => do
    let (b, binders) ← block name ws.supply node
    let (n, ws) ← attempt (Workspace.addNode b) ws
    let ws ← branches n 0 binders ws
    let (ns, ws) ← nodes rest ws
    return ((name, n) :: ns, ws)

def node (names : List (String × NodeId)) (name : String) : Except LoadError NodeId :=
  match names.lookup name with
  | some n => .ok n
  | none => .error (.unknownNode name)

def links (names : List (String × NodeId)) :
    List DescribedLink → Workspace → Except LoadError Workspace
  | [], ws => .ok ws
  | l :: rest, ws => do
    let source ← node names l.source
    let target ← node names l.target
    match ws.graph.socketAt? source .output, ws.graph.socketAt? target (.input l.input) with
    | some output, some input =>
      let (_, ws) ← attempt (Workspace.attach output input) ws
      links names rest ws
    | _, _ => .error (.missingInput l.target l.input)

end Loading

/-- The workspace that a description describes. -/
def Description.load (d : Description) : Except LoadError Loaded := do
  let ws ← Loading.types d.types .empty
  let ws ← Loading.functions d.functions ws
  let (nodes, ws) ← Loading.nodes d.nodes ws
  let ws ← Loading.links nodes d.links ws
  let (_, workspace) := ws.resolveAll
  return { workspace, nodes, errors := workspace.validate }

def Loaded.ofText (s : String) : Except LoadError Loaded :=
  match Description.read? s with
  | some d => d.load
  | none => .error .malformed

end BlockGraph
