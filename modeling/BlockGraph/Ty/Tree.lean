import BlockGraph.Error

/-!
Structured types: the form in which a type is stored.

A literal is a node with a name and arguments, and a variable is a node with a variable name.  An
arrow is the literal `->` with exactly two arguments, so a stored type does not depend on how
arrows are held in memory.
-/

namespace BlockGraph

/-- A stored type. -/
inductive TyTree where
  | var (name : String)
  | lit (name : String) (args : List TyTree)

namespace TyTree

mutual

def decEq : (a b : TyTree) → Decidable (a = b)
  | var n, var m => if h : n = m then isTrue (by rw [h]) else isFalse (by simpa using h)
  | lit n as, lit m bs =>
    if h : n = m then
      match decEqAll as bs with
      | isTrue h' => isTrue (by rw [h, h'])
      | isFalse h' => isFalse (by simp [h'])
    else isFalse (by simp [h])
  | var _, lit _ _ => isFalse (by simp)
  | lit _ _, var _ => isFalse (by simp)

def decEqAll : (as bs : List TyTree) → Decidable (as = bs)
  | [], [] => isTrue rfl
  | [], _ :: _ => isFalse (by simp)
  | _ :: _, [] => isFalse (by simp)
  | a :: as, b :: bs =>
    match decEq a b with
    | isTrue h =>
      match decEqAll as bs with
      | isTrue h' => isTrue (by rw [h, h'])
      | isFalse h' => isFalse (by simp [h'])
    | isFalse h => isFalse (by simp [h])

end

instance : DecidableEq TyTree := decEq

/-- The name of the literal that stands for an arrow. -/
def arrowName : String := "->"

mutual

def ofNamed : NamedTy → TyTree
  | .var name => var name
  | .lit name args => lit name (ofNamedAll args)
  | .fn domain codomain => lit arrowName [ofNamed domain, ofNamed codomain]

def ofNamedAll : List NamedTy → List TyTree
  | [] => []
  | t :: rest => ofNamed t :: ofNamedAll rest

end

/-- The stored form of a type, its variables named `a`, `b`, … in order of first appearance. -/
def ofTy (t : Ty) : TyTree :=
  ofNamed (t.named .none).1

/-- A literal with the given arguments, or an arrow if it has the arrow's name. -/
def build (name : String) (args : List NamedTy) : NamedTy :=
  match args with
  | [domain, codomain] => if name = arrowName then .fn domain codomain else .lit name args
  | _ => .lit name args

mutual

/-- The type that a stored form denotes.  It denotes none if an arrow in it has a number of
arguments other than two; of several such arrows the first one from the root is blamed. -/
def toNamed : TyTree → Except TypeError NamedTy
  | var name => .ok (.var name)
  | lit name args =>
    if name = arrowName ∧ args.length ≠ 2 then
      .error (.invalidSignature (.arrowArgs args.length))
    else
      match toNamedAll args with
      | .ok args => .ok (build name args)
      | .error e => .error e

def toNamedAll : List TyTree → Except TypeError (List NamedTy)
  | [] => .ok []
  | t :: rest =>
    match toNamed t with
    | .error e => .error e
    | .ok t =>
      match toNamedAll rest with
      | .ok rest => .ok (t :: rest)
      | .error e => .error e

end

end TyTree

/-- The arrow chain of a list of types, the last one being the result. -/
def TyTerm.chain (ts : List Ty) : Except TypeError Ty :=
  match chain? ts with
  | some t => .ok t
  | none => .error (.invalidSignature .emptyChain)

end BlockGraph
