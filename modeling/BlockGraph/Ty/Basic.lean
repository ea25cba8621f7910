/-!
Type terms.

A term is a variable, a named literal applied to zero or more arguments, or an arrow.  Terms are
generic in what a variable is: the program works on numbered variables (`Ty`), while a type that
was read or is about to be printed has variables that are names (`NamedTy`).  Moving between the
two forms is then a matter of replacing variables, and nothing else about a term changes.
-/

namespace BlockGraph

/-- A type term whose variables are taken from `ν`. -/
inductive TyTerm (ν : Type) where
  | var (v : ν)
  | lit (name : String) (args : List (TyTerm ν))
  | fn (domain codomain : TyTerm ν)

/-- A type variable is its number.  Variables have no names of their own: letters appear only when
a type is printed. -/
abbrev TyVar := Nat

/-- A type over numbered variables. -/
abbrev Ty := TyTerm TyVar

/-- A type as it is written, with names for variables. -/
abbrev NamedTy := TyTerm String

/-- The elements of a list in order of first appearance. -/
def firsts {α : Type} [DecidableEq α] : List α → List α
  | [] => []
  | a :: rest => a :: (firsts rest).filter (· ≠ a)

theorem mem_firsts {α : Type} [DecidableEq α] {a : α} {l : List α} : a ∈ firsts l ↔ a ∈ l := by
  induction l with
  | nil => simp [firsts]
  | cons b rest ih =>
    by_cases h : a = b
    · simp [firsts, h]
    · simp [firsts, ih, h]

theorem firsts_nodup {α : Type} [DecidableEq α] (l : List α) : (firsts l).Nodup := by
  induction l with
  | nil => simp [firsts]
  | cons b rest ih => exact List.nodup_cons.mpr ⟨by simp, ih.filter _⟩

namespace TyTerm

variable {ν μ : Type}

/-! ## Equality -/

mutual

/-- Terms over comparable variables are comparable. -/
def decEq [DecidableEq ν] : (a b : TyTerm ν) → Decidable (a = b)
  | var v, var w =>
    if h : v = w then isTrue (by rw [h]) else isFalse (by simpa using h)
  | lit n as, lit m bs =>
    if h : n = m then
      match decEqAll as bs with
      | isTrue h' => isTrue (by rw [h, h'])
      | isFalse h' => isFalse (by simp [h'])
    else isFalse (by simp [h])
  | fn d c, fn d' c' =>
    match decEq d d' with
    | isTrue h =>
      match decEq c c' with
      | isTrue h' => isTrue (by rw [h, h'])
      | isFalse h' => isFalse (by simp [h'])
    | isFalse h => isFalse (by simp [h])
  | var _, lit _ _ => isFalse (by simp)
  | var _, fn _ _ => isFalse (by simp)
  | lit _ _, var _ => isFalse (by simp)
  | lit _ _, fn _ _ => isFalse (by simp)
  | fn _ _, var _ => isFalse (by simp)
  | fn _ _, lit _ _ => isFalse (by simp)

def decEqAll [DecidableEq ν] : (as bs : List (TyTerm ν)) → Decidable (as = bs)
  | [], [] => isTrue rfl
  | [], _ :: _ => isFalse (by simp)
  | _ :: _, [] => isFalse (by simp)
  | a :: as, b :: bs =>
    match decEq a b with
    | isTrue h =>
      match decEqAll as bs with
      | isTrue h' => isTrue (by rw [h, h'])
      | isFalse h' => isFalse (by simp [h'])
    | isFalse h => isFalse (by simp [h])

end

instance [DecidableEq ν] : DecidableEq (TyTerm ν) := decEq

/-! ## Variables -/

mutual

/-- Every occurrence of a variable, from left to right. -/
def leaves : TyTerm ν → List ν
  | var v => [v]
  | lit _ args => leavesAll args
  | fn domain codomain => leaves domain ++ leaves codomain

def leavesAll : List (TyTerm ν) → List ν
  | [] => []
  | t :: rest => leaves t ++ leavesAll rest

end

/-- The distinct variables of a term, in order of first appearance. -/
def vars [DecidableEq ν] (t : TyTerm ν) : List ν :=
  firsts t.leaves

def occurs [DecidableEq ν] (v : ν) (t : TyTerm ν) : Bool :=
  t.leaves.contains v

def isConcrete (t : TyTerm ν) : Bool :=
  t.leaves.isEmpty

/-- Whether the term is a variable and nothing more. -/
def isVar : TyTerm ν → Bool
  | var _ => true
  | _ => false

theorem occurs_iff [DecidableEq ν] {v : ν} {t : TyTerm ν} :
    t.occurs v = true ↔ v ∈ t.leaves := by
  simp [occurs]

theorem mem_vars [DecidableEq ν] {v : ν} {t : TyTerm ν} : v ∈ t.vars ↔ v ∈ t.leaves :=
  mem_firsts

/-! ## Replacing variables -/

mutual

/-- Replaces every variable by a term. -/
def bind (f : ν → TyTerm μ) : TyTerm ν → TyTerm μ
  | var v => f v
  | lit name args => lit name (bindAll f args)
  | fn domain codomain => fn (bind f domain) (bind f codomain)

def bindAll (f : ν → TyTerm μ) : List (TyTerm ν) → List (TyTerm μ)
  | [] => []
  | t :: rest => bind f t :: bindAll f rest

end

/-- Replaces every variable by another one. -/
def map (f : ν → μ) (t : TyTerm ν) : TyTerm μ :=
  t.bind fun v => var (f v)

theorem bindAll_eq_map (f : ν → TyTerm μ) (ts : List (TyTerm ν)) :
    bindAll f ts = ts.map (bind f) := by
  induction ts with
  | nil => rfl
  | cons t rest ih => simp [bindAll, ih]

theorem leavesAll_eq_flatMap (ts : List (TyTerm ν)) : leavesAll ts = ts.flatMap leaves := by
  induction ts with
  | nil => rfl
  | cons t rest ih => simp [leavesAll, ih]

/-! ## Literals -/

mutual

/-- The literal names of a term, each before those of its arguments, repeats kept. -/
def literalNames : TyTerm ν → List String
  | var _ => []
  | lit name args => name :: literalNamesAll args
  | fn domain codomain => literalNames domain ++ literalNames codomain

def literalNamesAll : List (TyTerm ν) → List String
  | [] => []
  | t :: rest => literalNames t ++ literalNamesAll rest

end

def literalName? : TyTerm ν → Option String
  | lit name _ => some name
  | _ => none

/-- Whether some literal of the term has the given name. -/
def mentions (name : String) (t : TyTerm ν) : Bool :=
  t.literalNames.contains name

mutual

/-- Gives every literal called `old` the name `new`. -/
def renameLiteral (old new : String) : TyTerm ν → TyTerm ν
  | var v => var v
  | lit name args => lit (if name = old then new else name) (renameLiteralAll old new args)
  | fn domain codomain => fn (renameLiteral old new domain) (renameLiteral old new codomain)

def renameLiteralAll (old new : String) : List (TyTerm ν) → List (TyTerm ν)
  | [] => []
  | t :: rest => renameLiteral old new t :: renameLiteralAll old new rest

end

/-! ## Arrow chains -/

/-- The arrow chain that takes `params` one after another and gives `result`. -/
def curried (params : List (TyTerm ν)) (result : TyTerm ν) : TyTerm ν :=
  params.foldr fn result

/-- The arguments of the outermost arrow chain, and its result. -/
def uncurry : TyTerm ν → List (TyTerm ν) × TyTerm ν
  | fn domain codomain => (domain :: codomain.uncurry.1, codomain.uncurry.2)
  | t => ([], t)

def arity : TyTerm ν → Nat
  | fn _ codomain => codomain.arity + 1
  | _ => 0

/-- The arrow chain of a list of types, the last one being the result.  There is none for the
empty list. -/
def chain? (ts : List (TyTerm ν)) : Option (TyTerm ν) :=
  ts.getLast?.map (curried ts.dropLast)

theorem curried_uncurry (t : TyTerm ν) : curried t.uncurry.1 t.uncurry.2 = t := by
  induction t using uncurry.induct with
  | case1 domain codomain ih => simpa [uncurry, curried] using ih
  | case2 t h =>
    cases t with
    | var v => rfl
    | lit name args => rfl
    | fn domain codomain => exact absurd rfl (h domain codomain)

theorem length_uncurry (t : TyTerm ν) : t.uncurry.1.length = t.arity := by
  induction t using uncurry.induct with
  | case1 domain codomain ih => simp [uncurry, arity, ih]
  | case2 t h =>
    cases t with
    | var v => rfl
    | lit name args => rfl
    | fn domain codomain => exact absurd rfl (h domain codomain)

/-! ## Size -/

mutual

def size : TyTerm ν → Nat
  | var _ => 1
  | lit _ args => sizeAll args + 1
  | fn domain codomain => size domain + size codomain + 1

def sizeAll : List (TyTerm ν) → Nat
  | [] => 0
  | t :: rest => size t + sizeAll rest

end

/-! ## Equality up to renaming -/

/-- A list of pairs is one-to-one if equal first components go with equal second components, and
the other way round. -/
def oneToOne [DecidableEq ν] [DecidableEq μ] (pairs : List (ν × μ)) : Bool :=
  pairs.all fun p => pairs.all fun q => (p.1 = q.1) == (p.2 = q.2)

/-- Whether two terms are equal up to the choice of variables: they agree once every variable is
forgotten, and the variables that stand at the same places correspond one to one. -/
def alphaEq [DecidableEq ν] [DecidableEq μ] (a : TyTerm ν) (b : TyTerm μ) : Bool :=
  a.map (fun _ => ()) = b.map (fun _ => ()) && oneToOne (a.leaves.zip b.leaves)

end TyTerm

end BlockGraph
