import BlockGraph.Ty.Basic

/-!
Fresh type variables.

A supply hands out variables by number and never hands out the same one twice.  It is passed from
step to step, so every variable that exists is smaller than the next one.
-/

namespace BlockGraph

/-- The next variable that nobody uses. -/
structure Supply where
  next : TyVar := 0

namespace Supply

/-- Sets aside `count` variables, starting with `next`. -/
def skip (s : Supply) (count : Nat) : Supply :=
  ⟨s.next + count⟩

def fresh (s : Supply) : Ty × Supply :=
  (.var s.next, s.skip 1)

/-- Types that are fresh variables, pairwise different. -/
def freshMany (s : Supply) : Nat → List Ty × Supply
  | 0 => ([], s)
  | n + 1 =>
    let (t, s) := s.fresh
    let (ts, s) := s.freshMany n
    (t :: ts, s)

/-- The supply after the given variables, which may have been handed out elsewhere. -/
def past (s : Supply) : List TyVar → Supply
  | [] => s
  | v :: vs => ⟨max (s.past vs).next (v + 1)⟩

@[simp]
theorem next_skip (s : Supply) (count : Nat) : (s.skip count).next = s.next + count := rfl

theorem le_past (s : Supply) (vs : List TyVar) : s.next ≤ (s.past vs).next := by
  induction vs with
  | nil => exact Nat.le_refl _
  | cons v vs ih => exact Nat.le_trans ih (Nat.le_max_left _ _)

theorem lt_past (s : Supply) {vs : List TyVar} {v : TyVar} (hv : v ∈ vs) :
    v < (s.past vs).next := by
  induction vs with
  | nil => cases hv
  | cons w vs ih =>
    rcases List.mem_cons.mp hv with rfl | hv
    · exact Nat.le_max_right _ _
    · exact Nat.lt_of_lt_of_le (ih hv) (Nat.le_max_left _ _)

end Supply

/-- The variable that stands for `v` when the variables `vs` get fresh numbers in order. -/
def Supply.numbered {ν : Type} [DecidableEq ν] (s : Supply) (vs : List ν) (v : ν) : TyVar :=
  s.next + vs.idxOf v

namespace TyTerm

variable {ν : Type} [DecidableEq ν]

/-- Gives every variable of the term a fresh number, the same one wherever it appears. -/
def instantiate (t : TyTerm ν) (s : Supply) : Ty × Supply :=
  (t.map (s.numbered t.vars), s.skip t.vars.length)

/-- Gives the variables of several terms fresh numbers.  A variable that two of the terms share has
one number in both. -/
def instantiateAll (ts : List (TyTerm ν)) (s : Supply) : List Ty × Supply :=
  let vs := firsts (leavesAll ts)
  (ts.map (map (s.numbered vs)), s.skip vs.length)

end TyTerm

end BlockGraph
