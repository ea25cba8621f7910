import BlockGraph.Ty.Basic

/-!
The kinds of blocks that a node can be.
-/

namespace BlockGraph

/-- What a node stands for. -/
inductive Block where
  /-- A constant of a fixed type, such as a number or a piece of text. -/
  | literal (ty : Ty) (value : String)
  /-- A function, applied to the inputs. -/
  | function (name : String)
  /-- A constructor of a user type, applied to the inputs. -/
  | ctor (name : String)
  /-- A distinction of cases over a user type, with the names that each branch binds. -/
  | caseOf (type : String) (binders : List (List String))
  /-- A list of as many items as there are inputs. -/
  | list (items : Nat)
  /-- A variable that an enclosing branch of a case node binds. -/
  | localVar (name : String)

namespace Block

def label : Block → String
  | literal _ value => value
  | function name => name
  | ctor name => name
  | caseOf type _ => s!"case {type}"
  | list items => s!"list/{items}"
  | localVar name => name

end Block

end BlockGraph
