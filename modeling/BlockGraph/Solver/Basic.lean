import BlockGraph.Solver.Classes
import BlockGraph.Ty.Comparison

/-!
Solving equations by classes of variables.

A solver collects equations between types one at a time.  Variables that have to be equal form a
class, and a class has at most one value, which may again mention variables.  An equation that
cannot be met leaves the solver as it was, so each failure can be put down to the equation that
caused it while the others are still solved together.
-/

namespace BlockGraph

/-- The equations that have been met so far. -/
structure Solver where
  /-- The variables that an equation has spoken of, in order. -/
  known : List TyVar := []
  classes : Classes := {}
  /-- The values of classes, by representative. -/
  values : List (TyVar × Ty) := []

namespace Solver

def empty : Solver := {}

def rep (s : Solver) (v : TyVar) : TyVar :=
  s.classes.rep v

def value? (s : Solver) (v : TyVar) : Option Ty :=
  s.values.lookup (s.rep v)

/-- Replaces variables by the values of their classes, `depth` times in a row at most. -/
def expandBy (s : Solver) : Nat → Ty → Ty
  | 0, t => t
  | depth + 1, t =>
    t.bind fun v =>
      match s.value? v with
      | some u => s.expandBy depth u
      | none => .var v

/-- Replaces variables by the values of their classes until no variable has a value.  A value
never leads back to its own class, so the number of values bounds how often that happens. -/
def expand (s : Solver) (t : Ty) : Ty :=
  s.expandBy s.values.length t

/-- The current solution for a type: values for the variables that have one, and representatives
for the others. -/
def zonk (s : Solver) (t : Ty) : Ty :=
  (s.expand t).map s.rep

def learn (s : Solver) (v : TyVar) : Solver :=
  if v ∈ s.known then s else { s with known := s.known ++ [v] }

def merge (s : Solver) (v w : TyVar) : Solver :=
  { (s.learn v).learn w with classes := s.classes.merge v w }

def assign (s : Solver) (v : TyVar) (t : Ty) : Solver :=
  { s.learn v with values := (s.rep v, t) :: s.values }

/-- The replacement of every member of the class of `v` by `u`. -/
def replacingClass (s : Solver) (v : TyVar) (u : Ty) (w : TyVar) : Ty :=
  if s.rep w = s.rep v then u else .var w

@[simp]
theorem rep_learn (s : Solver) (v w : TyVar) : (s.learn v).rep w = s.rep w := by
  unfold learn rep
  split <;> rfl

@[simp]
theorem rep_assign (s : Solver) (v : TyVar) (t : Ty) (w : TyVar) :
    (s.assign v t).rep w = s.rep w := by
  simp only [assign, rep]
  exact rep_learn s v w

@[simp]
theorem rep_merge (s : Solver) (v w x : TyVar) :
    (s.merge v w).rep x = (s.classes.merge v w).rep x := rfl

/-- The classes that the variables of the equations fall into. -/
def classesOf (s : Solver) (equations : List Equation) : List TyVar :=
  (Equation.leaves equations).map s.rep

theorem mem_classesOf {s : Solver} {equations : List Equation} {a : TyVar} :
    a ∈ s.classesOf equations ↔ ∃ x ∈ Equation.leaves equations, s.rep x = a := by
  simp [classesOf]

/-- Solves equations from left to right.  No variable in them belongs to a class with a value. -/
def solveAll (s : Solver) : List Equation → Except TypeError Solver
  | [] => .ok s
  | (l, r) :: rest =>
    match _h : compareHeads l r with
    | .variables v w => (s.merge v w).solveAll rest
    | .variable v t =>
      if t.leaves.any fun w => s.rep w = s.rep v then .error (.occurs v (t.map s.rep))
      else (s.assign v (t.map s.rep)).solveAll
        (Equation.bindAll (s.replacingClass v (t.map s.rep)) rest)
    | .parts equations => s.solveAll (equations ++ rest)
    | .clash kind => .error (.mismatch kind (l.map s.rep) (r.map s.rep))
termination_by equations => ((firsts (s.classesOf equations)).length, Equation.size equations)
decreasing_by
  · obtain ⟨rfl, rfl⟩ := compareHeads_variables _h
    have hmem : ∀ x, x = v ∨ x = w ∨ x ∈ Equation.leaves rest →
        x ∈ Equation.leaves ((TyTerm.var v, TyTerm.var w) :: rest) := by
      intro x hx
      simpa [TyTerm.leaves] using hx
    by_cases hvw : s.classes.rep v = s.classes.rep w
    · have hrep : ∀ x, (s.merge v w).rep x = s.rep x := fun x => by
        rw [rep_merge, Classes.merge_of_rep_eq _ _ _ hvw, rep]
      apply Prod.Lex.right'
      · refine firsts_length_le fun a ha => ?_
        obtain ⟨x, hx, rfl⟩ := mem_classesOf.mp ha
        exact mem_classesOf.mpr ⟨x, hmem x (.inr (.inr hx)), (hrep x).symm⟩
      · simp only [Equation.size_cons, TyTerm.size]; omega
    · obtain ⟨a, b, hab, hrep⟩ := s.classes.rep_merge v w hvw
      have hends : ∀ c, c = a ∨ c = b →
          c ∈ s.classesOf ((TyTerm.var v, TyTerm.var w) :: rest) := by
        intro c hc
        have hc : s.rep v = c ∨ s.rep w = c := by
          unfold rep
          grind
        exact mem_classesOf.mpr (hc.elim (fun h => ⟨v, hmem v (.inl rfl), h⟩)
          fun h => ⟨w, hmem w (.inr (.inl rfl)), h⟩)
      apply Prod.Lex.left
      refine firsts_length_lt (hends a (.inl rfl)) fun c hc => ?_
      obtain ⟨x, hx, rfl⟩ := mem_classesOf.mp hc
      rw [rep_merge, hrep]
      split
      · exact ⟨hends b (.inr rfl), by grind⟩
      · exact ⟨mem_classesOf.mpr ⟨x, hmem x (.inr (.inr hx)), rfl⟩, by assumption⟩
  · rename_i hocc
    have hocc : ∀ w ∈ t.leaves, s.rep w ≠ s.rep v := by simpa using hocc
    apply Prod.Lex.left
    have hall : ∀ w, w = v ∨ w ∈ t.leaves → w ∈ Equation.leaves ((l, r) :: rest) := by
      intro w hw
      rcases compareHeads_variable _h with ⟨rfl, rfl⟩ | ⟨rfl, rfl⟩
      · simp only [Equation.leaves_cons, TyTerm.leaves, List.mem_append, List.mem_singleton]
        exact .inl hw
      · simp only [Equation.leaves_cons, TyTerm.leaves, List.mem_append, List.mem_singleton]
        exact .inl hw.symm
    refine firsts_length_lt (a := s.rep v) ?_ fun c hc => ?_
    · exact mem_classesOf.mpr ⟨v, hall v (.inl rfl), rfl⟩
    · obtain ⟨y, hy, rfl⟩ := mem_classesOf.mp hc
      rw [rep_assign]
      obtain ⟨x, hx, hy⟩ := Equation.mem_leaves_bindAll hy
      unfold replacingClass at hy
      split at hy
      · obtain ⟨w, hw, hy⟩ := TyTerm.mem_leaves_bind t hy
        have hyw : y = s.rep w := by simpa [TyTerm.leaves] using hy
        have hrep : s.rep y = s.rep w := by rw [hyw]; exact s.classes.rep_rep w
        rw [hrep]
        exact ⟨mem_classesOf.mpr ⟨w, hall w (.inr hw), rfl⟩, hocc w hw⟩
      · have hyx : y = x := by simpa [TyTerm.leaves] using hy
        subst hyx
        exact ⟨mem_classesOf.mpr ⟨y, by simp [hx], rfl⟩, by assumption⟩
  · have hsize := compareHeads_parts_size _h
    apply Prod.Lex.right'
    · refine firsts_length_le fun a ha => ?_
      obtain ⟨x, hx, rfl⟩ := mem_classesOf.mp ha
      refine mem_classesOf.mpr ⟨x, ?_, rfl⟩
      rw [Equation.leaves_append, List.mem_append] at hx
      rw [Equation.leaves_cons, List.mem_append]
      exact hx.imp_left fun hx => compareHeads_parts_leaves _h hx
    · simp only [Equation.size_append, Equation.size_cons]; omega

/-- Adds an equation, if it can be met together with those before it. -/
def constrain (s : Solver) (l r : Ty) : Except TypeError Solver :=
  s.solveAll [(s.expand l, s.expand r)]

end Solver

end BlockGraph
