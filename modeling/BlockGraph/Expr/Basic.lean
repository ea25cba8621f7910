import BlockGraph.Error

/-!
Expressions.

An expression is made of names, literal values, applications, and bindings of a pattern variable
of a given type.  Every node of it can carry the socket that it was built for, so that a place in
the expression leads back to a place in the graph.  What a name is, is left open: a text, or the
number of an interned name.
-/

namespace BlockGraph

/-- An expression with names from `ν`, tagged with sockets. -/
inductive Expr (ν : Type) where
  | var (tag : Option SocketId) (name : ν)
  | lit (tag : Option SocketId) (value : ν)
  | app (tag : Option SocketId) (callee arg : Expr ν)
  /-- The body with a pattern variable of the given type. -/
  | bind (tag : Option SocketId) (name : ν) (ascribed : Ty) (body : Expr ν)

namespace Expr

variable {ν : Type}

/-- The name of the hole that stands for a missing expression. -/
def undefName : String := "undef"

def listName : String := "list"

def tag : Expr ν → Option SocketId
  | var tag _ => tag
  | lit tag _ => tag
  | app tag _ _ => tag
  | bind tag _ _ _ => tag

/-- The expression with another tag on its outermost node. -/
def retag (tag : Option SocketId) : Expr ν → Expr ν
  | var _ name => var tag name
  | lit _ value => lit tag value
  | app _ callee arg => app tag callee arg
  | bind _ name ascribed body => bind tag name ascribed body

/-- Applies an expression to arguments one after another.  The applications carry its tag. -/
def applyAll (callee : Expr ν) (args : List (Expr ν)) : Expr ν :=
  args.foldl (fun f x => app f.tag f x) callee

/-- The nodes of the expression, each before those below it, and a callee before its argument. -/
def nodes : Expr ν → List (Expr ν)
  | var tag name => [var tag name]
  | lit tag value => [lit tag value]
  | app tag callee arg => app tag callee arg :: (callee.nodes ++ arg.nodes)
  | bind tag name ascribed body => bind tag name ascribed body :: body.nodes

/-- Whether the outermost node is a hole.  Names are shown by `text`. -/
def isHole (text : ν → String) : Expr ν → Bool
  | var _ name => text name = undefName
  | _ => false

end Expr

end BlockGraph
