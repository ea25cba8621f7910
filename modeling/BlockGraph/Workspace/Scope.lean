import BlockGraph.Workspace.Basic

/-!
The scope of pattern variables.

A node for a pattern variable is bound by the nearest case branch downstream of it that binds its
name.  An output feeds at most one input, so there is one path to follow.
-/

namespace BlockGraph.Workspace

structure BindingSite where
  node : NodeId
  /-- The type whose cases the node distinguishes. -/
  type : String
  branch : Nat
  field : Nat

/-- The site at which an input of a node binds a name: input 0 of a case node takes the value that
is looked at, and the inputs after it are the branches. -/
def siteAt? (n : NodeId) (block : Block) (role : Role) (name : String) : Option BindingSite :=
  match block, role with
  | .caseOf type binders, .input (branch + 1) =>
    (binders[branch]?.bind fun names => names.idxOf? name).map fun field =>
      { node := n, type, branch, field }
  | _, _ => none

/-- The input that an output feeds, where `pending` is a link that has not been made yet. -/
def consumer? (g : Graph) (pending : Option Link) (output : SocketId) : Option SocketId :=
  match pending with
  | some l => if l.output = output then some l.input else g.peer? output
  | none => g.peer? output

/-- Follows an output downstream to the first site that binds a name. -/
def follow? (g : Graph) (pending : Option Link) (name : String) (output : SocketId)
    (seen : List SocketId) : Option BindingSite :=
  if _h : output ∈ g.sockets.keys ∧ output ∉ seen then
    match consumer? g pending output with
    | none => none
    | some input =>
      match g.socket? input with
      | none => none
      | some socket =>
        match g.node? socket.node with
        | none => none
        | some node =>
          match siteAt? socket.node node.block socket.role name with
          | some site => some site
          | none => follow? g pending name node.output (output :: seen)
  else none
termination_by (Search.unseen g.sockets.keys seen).length
decreasing_by exact Search.length_unseen_cons_lt _h.1 _h.2

/-- Where the pattern variable of a node is bound. -/
def bindingSite? (g : Graph) (pending : Option Link) (n : NodeId) : Option BindingSite :=
  match g.node? n with
  | some node =>
    match node.block with
    | .localVar name => follow? g pending name node.output []
    | _ => none
  | none => none

/-- A fresh instance of the type of the field that a site stands for, which is a fresh variable if
that type is not set. -/
def siteType (r : Registry) (site : BindingSite) (s : Supply) : Ty × Supply :=
  match r.fieldType? site.type site.branch site.field with
  | some t => t.instantiate s
  | none => s.fresh

/-- A fresh instance of the type that the pattern variable of a node is bound with. -/
def binding? (ws : Workspace) (pending : Option Link) (n : NodeId) : Option (Ty × Supply) :=
  (bindingSite? ws.graph pending n).map fun site => siteType ws.registry site ws.supply

/-- The outputs of the nodes for pattern variables that are bound, each with the type that it is
bound with. -/
def scopeConstraints (g : Graph) (r : Registry) (pending : Option Link) :
    List NodeId → Supply → List (SocketId × Ty) × Supply
  | [], s => ([], s)
  | n :: rest, s =>
    match g.node? n, bindingSite? g pending n with
    | some node, some site =>
      let (t, s) := siteType r site s
      let (constraints, s) := scopeConstraints g r pending rest s
      ((node.output, t) :: constraints, s)
    | _, _ => scopeConstraints g r pending rest s

end BlockGraph.Workspace
