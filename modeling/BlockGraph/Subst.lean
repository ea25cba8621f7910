import BlockGraph.Ty.Comparison
import BlockGraph.Ty.Supply

/-!
Substitutions and unification.

A substitution binds variables to types and is kept dereferenced: no type in its range mentions a
variable that it binds.  So one pass of replacement applies it completely.  A new binding passes an
occurs check and is carried out in the range before it is added.

Unification works through a list of equations that already have the substitution applied to them.
An equation between a variable and a type removes that variable from all that is left, and any
other equation is replaced by smaller ones over the same variables, which is why it ends.
-/

namespace BlockGraph

/-- The replacement of the variable `v` by `u`. -/
def replacing (v : TyVar) (u : Ty) (w : TyVar) : Ty :=
  if w = v then u else .var w

/-- Bindings of type variables. -/
structure Subst where
  bindings : List (TyVar × Ty) := []

namespace Subst

def empty : Subst := {}

def get? (σ : Subst) (v : TyVar) : Option Ty :=
  σ.bindings.lookup v

def size (σ : Subst) : Nat :=
  σ.bindings.length

/-- What becomes of a variable. -/
def image (σ : Subst) (v : TyVar) : Ty :=
  (σ.get? v).getD (.var v)

/-- The type with every bound variable replaced. -/
def apply (σ : Subst) (t : Ty) : Ty :=
  t.bind σ.image

/-- Adds a binding of a variable that is not bound yet, and carries it out in the range. -/
def insert (σ : Subst) (v : TyVar) (t : Ty) : Subst :=
  ⟨(v, t) :: σ.bindings.map fun b => (b.1, b.2.bind (replacing v t))⟩

/-- Solves equations from left to right on top of the bindings that are already there.  The
substitution has been applied to the equations. -/
def solveAll (σ : Subst) : List Equation → Except TypeError Subst
  | [] => .ok σ
  | (l, r) :: rest =>
    match _h : compareHeads l r with
    | .variables v w =>
      if v = w then σ.solveAll rest
      else (σ.insert v (.var w)).solveAll (Equation.bindAll (replacing v (.var w)) rest)
    | .variable v t =>
      if t.occurs v then .error (.occurs v t)
      else (σ.insert v t).solveAll (Equation.bindAll (replacing v t) rest)
    | .parts equations => σ.solveAll (equations ++ rest)
    | .clash kind => .error (.mismatch kind l r)
termination_by equations => ((firsts (Equation.leaves equations)).length, Equation.size equations)
decreasing_by
  · have hl := TyTerm.size_pos l
    apply Prod.Lex.right'
    · exact firsts_length_le fun a ha => by simp [ha]
    · simp only [Equation.size_cons]; omega
  · rename_i hvw
    obtain ⟨rfl, rfl⟩ := compareHeads_variables _h
    apply Prod.Lex.left
    refine firsts_length_lt (a := v) (by simp [TyTerm.leaves]) fun b hb => ?_
    obtain ⟨x, hx, hb⟩ := Equation.mem_leaves_bindAll hb
    grind [replacing, Equation.leaves_cons, TyTerm.leaves]
  · rename_i hocc
    apply Prod.Lex.left
    have hv : v ∉ t.leaves := by simpa [TyTerm.occurs] using hocc
    rcases compareHeads_variable _h with ⟨rfl, rfl⟩ | ⟨rfl, rfl⟩ <;>
    · refine firsts_length_lt (a := v) (by simp [TyTerm.leaves]) fun b hb => ?_
      obtain ⟨x, hx, hb⟩ := Equation.mem_leaves_bindAll hb
      grind [replacing, Equation.leaves_cons, TyTerm.leaves]
  · have hsize := compareHeads_parts_size _h
    apply Prod.Lex.right'
    · refine firsts_length_le fun a ha => ?_
      rw [Equation.leaves_append, List.mem_append] at ha
      rw [Equation.leaves_cons, List.mem_append]
      exact ha.imp_left fun ha => compareHeads_parts_leaves _h ha
    · simp only [Equation.size_append, Equation.size_cons]; omega

def unify (σ : Subst) (l r : Ty) : Except TypeError Subst :=
  σ.solveAll [(σ.apply l, σ.apply r)]

def bind (σ : Subst) (v : TyVar) (t : Ty) : Except TypeError Subst :=
  σ.unify (.var v) t

def singleton (v : TyVar) (t : Ty) : Except TypeError Subst :=
  empty.bind v t

def bindAll (σ : Subst) : List (TyVar × Ty) → Except TypeError Subst
  | [] => .ok σ
  | (v, t) :: rest =>
    match σ.bind v t with
    | .ok σ => σ.bindAll rest
    | .error e => .error e

/-- A substitution that satisfies the bindings of both. -/
def compose (σ τ : Subst) : Except TypeError Subst :=
  σ.bindAll τ.bindings

/-- Binds every variable of a type to a fresh one. -/
def freshRenaming (t : Ty) (s : Supply) : Subst × Supply :=
  (⟨t.vars.map fun v => (v, .var (s.numbered t.vars v))⟩, s.skip t.vars.length)

end Subst

/-- A most general unifier of two types. -/
def unify (l r : Ty) : Except TypeError Subst :=
  Subst.empty.unify l r

def unifiable (l r : Ty) : Bool :=
  (unify l r).toBool

end BlockGraph
