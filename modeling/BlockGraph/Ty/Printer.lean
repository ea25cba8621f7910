import BlockGraph.Layout
import BlockGraph.Ty.Names

/-!
Types as text.

An arrow is a group: its domain and the mark `->` stay together, and a line may end before the
codomain.  Round brackets stand around an arrow in a domain, and around every argument of a literal
that is neither a variable nor a bare name.
-/

namespace BlockGraph

/-- The line width used where none is given. -/
def defaultWidth : Nat := 80

/-- A document in round brackets if the condition holds. -/
def Doc.parensIf (condition : Bool) (d : Doc) : Doc :=
  if condition then d.parens else d

namespace TyTerm

/-- A variable or a bare name, which needs no brackets as an argument. -/
def isAtom {ν : Type} : TyTerm ν → Bool
  | var _ => true
  | lit _ args => args.isEmpty
  | fn _ _ => false

def isArrow {ν : Type} : TyTerm ν → Bool
  | fn _ _ => true
  | _ => false

mutual

def toDoc : NamedTy → Doc
  | var v => .text v
  | lit name [] => .text name
  | lit name (arg :: args) =>
    .text name ++ .text " " ++ Doc.spaced (argDocs (arg :: args))
  | fn domain codomain =>
    .group ((toDoc domain).parensIf domain.isArrow ++ .text " ->" ++ .line ++ toDoc codomain)

def argDocs : List NamedTy → List Doc
  | [] => []
  | arg :: args => (toDoc arg).parensIf (!arg.isAtom) :: argDocs args

end

def textAt (width : Nat) (t : Ty) : String :=
  (t.named .none).1.toDoc.render width

def text (t : Ty) : String :=
  t.textAt defaultWidth

/-- The text of a type with names shared with what was printed before it. -/
def textWith (names : VarNames) (t : Ty) : String × VarNames :=
  ((t.named names).1.toDoc.render defaultWidth, (t.named names).2)

/-- The texts of several types that share one table of names. -/
def textsWith (names : VarNames) : List Ty → List String × VarNames
  | [] => ([], names)
  | t :: rest =>
    let (s, names) := t.textWith names
    let (ss, names) := textsWith names rest
    (s :: ss, names)

end TyTerm

end BlockGraph
