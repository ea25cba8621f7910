import BlockGraph.Text.Quoted
import BlockGraph.Ty.Printer

/-!
What can go wrong, and how it is said.

`TypeError` holds the failures of the type system: unification, signatures, names and references
into the graph.  `EditError` is what an edit of a registry or a workspace is refused with.  It adds
misuse of the wiring and names or positions that do not exist.
-/

namespace BlockGraph

/-- The number of a node.  Numbers of removed nodes are not used again. -/
abbrev NodeId := Nat

/-- The number of a socket.  The number of a removed socket may be used again. -/
abbrev SocketId := Nat

/-- How two types fail to match. -/
inductive Mismatch where
  /-- Two literals have different names. -/
  | name
  /-- Two literals have different numbers of arguments, or an arrow meets a literal. -/
  | arity
  deriving DecidableEq

def Mismatch.message : Mismatch → String
  | name => "type mismatch"
  | arity => "wrong number of arguments"

/-- A reference into a graph that leads nowhere, or round in a circle. -/
inductive Dangling where
  | node (node : NodeId)
  | socket (socket : SocketId)
  | cycle (node : NodeId)
  deriving DecidableEq

def nodeText (node : NodeId) : String :=
  s!"NodeId({node})"

def socketText (socket : SocketId) : String :=
  s!"SocketId(NodeIndex({socket}))"

def Dangling.message : Dangling → String
  | node n => s!"the node {nodeText n} does not exist"
  | socket s => s!"the socket {socketText s} does not exist"
  | cycle n => s!"the connections through {nodeText n} form a cycle"

/-- Why there is no signature. -/
inductive SignatureFault where
  | emptyChain
  | arrowArgs (count : Nat)
  | unknownType (name : String)
  | unknownFunction (name : String)
  | functionMentions (function : String) (name : String)
  | unknownConstructor (name : String)
  | unboundLocal (name : String)
  | inputCount (label : String) (expected : Nat) (node : NodeId) (actual : Nat)
  deriving DecidableEq

def SignatureFault.message : SignatureFault → String
  | emptyChain => "an arrow chain needs a result type"
  | arrowArgs count => s!"an arrow takes 2 arguments, but {count} were given"
  | unknownType name => s!"unknown type {name}"
  | unknownFunction name => s!"unknown function {name}"
  | functionMentions function name => s!"{function} mentions the unknown type {name}"
  | unknownConstructor name => s!"unknown constructor {name}"
  | unboundLocal name => s!"the variable {name} is not bound by an enclosing case branch"
  | inputCount label expected node actual =>
    s!"{label} takes {expected} arguments but node {nodeText node} has {actual} inputs"

/-- A failure of the type system. -/
inductive TypeError where
  /-- A variable would have to be equal to a larger type that contains it. -/
  | occurs (v : TyVar) (ty : Ty)
  | mismatch (kind : Mismatch) (expected found : Ty)
  | invalidSignature (fault : SignatureFault)
  /-- No free name was found near the candidate. -/
  | nameCollision (candidate : String) (attempts : Nat)
  | dangling (reference : Dangling)
  deriving DecidableEq

/-- The wording of a type error.  Each type in it has names of its own; the number of a variable
is not shown. -/
def TypeError.message : TypeError → String
  | occurs _ ty => s!"the type variable ? occurs in {ty.text}"
  | mismatch kind expected found =>
    s!"{kind.message}: expected {expected.text} but found {found.text}"
  | invalidSignature fault => s!"invalid signature: {fault.message}"
  | nameCollision candidate attempts =>
    s!"could not find a free name for {Text.quote candidate} after {attempts} attempts"
  | dangling reference => s!"dangling reference: {reference.message}"

/-- Why an edit is refused. -/
inductive EditError where
  | type (error : TypeError)
  | expectedOutput (socket : SocketId)
  | expectedInput (socket : SocketId)
  | occupied (socket : SocketId)
  | notConnected (output input : SocketId)
  | fixedArity (node : NodeId)
  | unknownType (name : String)
  | unknownConstructor (name : String)
  | unknownVariant (owner : String) (index : Nat)
  | unknownField (owner : String) (variant field : Nat)
  | wrongKind (node : NodeId)
  | invalidName (name : String)
  | binderTaken (name : String)
  deriving DecidableEq

/-- The refusal because of a reference that leads nowhere. -/
def EditError.ofDangling (d : Dangling) : EditError :=
  .type (.dangling d)

def EditError.message : EditError → String
  | type error => error.message
  | expectedOutput s => s!"the socket {socketText s} is not an output"
  | expectedInput s => s!"the socket {socketText s} is not an input"
  | occupied s => s!"the input {socketText s} is already connected"
  | notConnected a b => s!"the sockets {socketText a} and {socketText b} are not connected"
  | fixedArity n => s!"the node {nodeText n} has a fixed number of inputs"
  | unknownType name => s!"unknown user type {Text.quote name}"
  | unknownConstructor name => s!"unknown constructor {Text.quote name}"
  | unknownVariant owner index => s!"the type {Text.quote owner} has no variant {index}"
  | unknownField owner variant field =>
    s!"variant {variant} of {Text.quote owner} has no field {field}"
  | wrongKind n => s!"the node {nodeText n} does not support this edit"
  | invalidName name => s!"{Text.quote name} is not a valid name"
  | binderTaken name => s!"{Text.quote name} is already bound in this branch"

end BlockGraph
