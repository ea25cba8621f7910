import BlockGraph.Expr.Basic

/-!
Expressions as text.

A callee stands in brackets only if it is a binding, and an argument stands in brackets unless it is
a name or a value.  All annotations share one table of variable names.  The names are used from the
inside out: an argument before its callee, and a body before the type given in its binding.
-/

namespace BlockGraph.Expr

variable {ν : Type}

def isBinding : Expr ν → Bool
  | bind .. => true
  | _ => false

/-- A name or a value, which needs no brackets as an argument. -/
def isAtom : Expr ν → Bool
  | var .. => true
  | lit .. => true
  | _ => false

/-- The document of an expression whose names are shown by `text`, and the variable names used. -/
def docWith (text : ν → String) : Expr ν → VarNames → Doc × VarNames
  | var _ name, names => (.text (text name), names)
  | lit _ value, names => (.text (text value), names)
  | app _ callee arg, names =>
    let (argDoc, names) := docWith text arg names
    let (calleeDoc, names) := docWith text callee names
    (.group (.nest 2
      (calleeDoc.parensIf callee.isBinding ++ .line ++ argDoc.parensIf (!arg.isAtom))), names)
  | bind _ name ascribed body, names =>
    let (bodyDoc, names) := docWith text body names
    let (ascribed, names) := ascribed.named names
    (.group (.text "let" ++ .text " " ++ .text (text name) ++ .text " : " ++ ascribed.toDoc ++
      .text " in" ++ .line ++ bodyDoc), names)

def textAt (width : Nat) (text : ν → String) (e : Expr ν) : String :=
  (docWith text e .none).1.render width

end BlockGraph.Expr
