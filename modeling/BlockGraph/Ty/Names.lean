import BlockGraph.Ty.Basic

/-!
Letters for type variables.

Variables are named in order of first use: `a` to `z`, then `a1` to `z1`, and so on.  One table of
names can run through several types, which then share the names of the variables they share.
-/

namespace BlockGraph

def nthName (n : Nat) : String :=
  let letter := String.singleton (Char.ofNat ('a'.toNat + n % 26))
  if n / 26 = 0 then letter else letter ++ toString (n / 26)

/-- The variables that have a name, in order of first use. -/
structure VarNames where
  used : List TyVar := []

namespace VarNames

def none : VarNames := {}

def see (names : VarNames) (t : Ty) : VarNames :=
  ⟨names.used ++ t.vars.filter fun v => v ∉ names.used⟩

def name (names : VarNames) (v : TyVar) : String :=
  nthName (names.used.idxOf v)

end VarNames

/-- The type with a name in the place of every variable, and the names used so far. -/
def TyTerm.named (t : Ty) (names : VarNames) : NamedTy × VarNames :=
  (t.map (names.see t).name, names.see t)

end BlockGraph
