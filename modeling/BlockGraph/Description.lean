import BlockGraph.Toml.Document

/-!
Descriptions of workspaces.

A description lists functions, user types, nodes by name, and the links between them.  Types stand
in it as they are written.  `Description.read?` reads one from a file.
-/

namespace BlockGraph

/-- The type of a field, as a text or as a tree. -/
inductive DescribedField where
  | text (s : String)
  | tree (t : TyTree)

structure DescribedVariant where
  ctor : String
  fields : List DescribedField

structure DescribedType where
  name : String
  variants : List DescribedVariant

inductive DescribedNode where
  | literal (type value : String)
  | function (name : String)
  | ctor (name : String)
  /-- A distinction of cases, with names for fields of its branches. -/
  | caseOf (type : String) (binders : List (List String))
  | list (items : Nat)
  | localVar (name : String)

structure DescribedLink where
  source : String
  target : String
  input : Nat

/-- A description.  Functions and nodes are in the order of their names. -/
structure Description where
  functions : List (String × String)
  types : List DescribedType
  nodes : List (String × DescribedNode)
  links : List DescribedLink

/-! ## Reading -/

def DescribedField.ofData? (d : Data) : Option DescribedField :=
  match d with
  | .text s => some (.text s)
  | d => (TyTree.ofData? d).map .tree

def DescribedVariant.ofData? (d : Data) : Option DescribedVariant := do
  let ctor ← (← d.part? 0 "constructor").asText?
  let fields ← Data.listOr DescribedField.ofData? (d.part? 1 "fields")
  return { ctor, fields }

def DescribedType.ofData? (d : Data) : Option DescribedType := do
  let name ← (← d.part? 0 "name").asText?
  let variants ← Data.listOr DescribedVariant.ofData? (d.part? 1 "variants")
  return { name, variants }

namespace DescribedNode

def ofKind? (kind : String) (d : Data) : Option DescribedNode := do
  match kind with
  | "literal" =>
    let type ← (← d.part? 1 "type").asText?
    let value ← (← d.part? 2 "value").asText?
    return literal type value
  | "function" => return function (← (← d.part? 1 "name").asText?)
  | "constructor" => return ctor (← (← d.part? 1 "name").asText?)
  | "case" =>
    let type ← (← d.part? 1 "type").asText?
    let binders ← Data.listOr (fun names => Data.listOr Data.asText? (some names))
      (d.part? 2 "binders")
    return caseOf type binders
  | "list" => return list (← (← d.part? 1 "items").asCount?)
  | "local" => return localVar (← (← d.part? 1 "name").asText?)
  | _ => none

/-- How many parts a node given as a list can have, with its kind. -/
def size : DescribedNode → Nat
  | literal .. => 3
  | caseOf .. => 3
  | _ => 2

def ofData? (d : Data) : Option DescribedNode := do
  let kind ← (← d.part? 0 "kind").asText?
  let node ← ofKind? kind d
  if d.isAtMost node.size then return node else none

end DescribedNode

def DescribedLink.ofData? (d : Data) : Option DescribedLink := do
  let source ← (← d.part? 0 "from").asText?
  let target ← (← d.part? 1 "to").asText?
  let input ← (← d.part? 2 "input").asCount?
  return { source, target, input }

namespace Description

/-- The entries of a table in the order of their keys, each read by `f`.  A table that is left out
has no entries. -/
def namedOr {α : Type} (f : Data → Option α) : Option Data → Option (List (String × α))
  | none => some []
  | some d => d.asSorted?.bind fun entries => entries.mapM fun (name, d) => (f d).map (name, ·)

def ofData? (d : Data) : Option Description := do
  let functions ← namedOr Data.asText? (d.part? 0 "functions")
  let types ← Data.listOr DescribedType.ofData? (d.part? 1 "types")
  let nodes ← namedOr DescribedNode.ofData? (d.part? 2 "nodes")
  let links ← Data.listOr DescribedLink.ofData? (d.part? 3 "links")
  return { functions, types, nodes, links }

/-- The description in the text of a file. -/
def read? (s : String) : Option Description :=
  (Toml.read s).bind ofData?

end Description

end BlockGraph
