import BlockGraph.Ty.Basic

/-!
Classes of variables that have been made equal.

The classes are kept as the merges that made them.  A merge absorbs one representative into
another, so the representative of a variable is found by following the merges from the oldest to
the newest.  A variable that no merge speaks of is a class of its own.  A merge keeps the
representative of higher rank; between equal ranks it keeps the second one, whose rank grows.
-/

namespace BlockGraph

/-- Absorbs the class of one representative into the class of another. -/
structure Merge where
  absorbed : TyVar
  kept : TyVar
  /-- The rank of the kept representative after the merge. -/
  rank : Nat

namespace Merge

/-- The representative that stands for `v` after the merge. -/
def redirect (m : Merge) (v : TyVar) : TyVar :=
  if v = m.absorbed then m.kept else v

/-- The representative of `v` after merges, which are listed from the newest to the oldest. -/
def find (merges : List Merge) (v : TyVar) : TyVar :=
  merges.foldr redirect v

end Merge

/-- A partition of the variables.  Every representative represents itself. -/
structure Classes where
  /-- The merges, the newest first. -/
  merges : List Merge := []
  rep_rep : ∀ v, Merge.find merges (Merge.find merges v) = Merge.find merges v := by
    intro v; rfl

namespace Classes

def rep (c : Classes) (v : TyVar) : TyVar :=
  Merge.find c.merges v

def rank (c : Classes) (v : TyVar) : Nat :=
  match c.merges.find? fun m => m.kept = v with
  | some m => m.rank
  | none => 0

/-- Absorbs the class of `a` into the class of `b`, both of them representatives. -/
def absorb (c : Classes) (a b : TyVar) (rank : Nat) (hb : c.rep b = b) (hab : a ≠ b) :
    Classes where
  merges := ⟨a, b, rank⟩ :: c.merges
  rep_rep := by
    intro v
    have hv := c.rep_rep v
    simp only [rep] at hb
    simp only [Merge.find, List.foldr_cons, Merge.redirect] at hv hb ⊢
    grind

def merge (c : Classes) (v w : TyVar) : Classes :=
  let a := c.rep v
  let b := c.rep w
  if h : a = b then c
  else if c.rank b < c.rank a then
    c.absorb b a (c.rank a) (c.rep_rep v) fun hba => h hba.symm
  else if c.rank a < c.rank b then
    c.absorb a b (c.rank b) (c.rep_rep w) h
  else
    c.absorb a b (c.rank b + 1) (c.rep_rep w) h

/-- A merge of two classes leaves one of the two representatives to both, and changes no other
representative. -/
theorem rep_merge (c : Classes) (v w : TyVar) (h : c.rep v ≠ c.rep w) :
    ∃ a b, (a = c.rep v ∧ b = c.rep w ∨ a = c.rep w ∧ b = c.rep v) ∧
      ∀ x, (c.merge v w).rep x = if c.rep x = a then b else c.rep x := by
  unfold merge
  simp only [h, dite_false]
  split
  · exact ⟨_, _, .inr ⟨rfl, rfl⟩, fun x => rfl⟩
  · split
    · exact ⟨_, _, .inl ⟨rfl, rfl⟩, fun x => rfl⟩
    · exact ⟨_, _, .inl ⟨rfl, rfl⟩, fun x => rfl⟩

theorem merge_of_rep_eq (c : Classes) (v w : TyVar) (h : c.rep v = c.rep w) :
    c.merge v w = c := by
  simp [merge, h]

end Classes

end BlockGraph
