import BlockGraph.Proofs.Unification.Dereferencing
import BlockGraph.Proofs.Unification.Mirroring
import Mathlib.Data.List.Zip

/-!
# Unification from either side

Where two variables meet, the one on the left is bound to the one on the right.  So
the sides of an equation matter for what is bound, and from the first such pair on the
two ways to read an equation go different ways.  They remain the same up to a renaming,
which exchanges the two variables at every such pair: `Turned π σ τ es fs` says that the
bindings `τ` are the bindings `σ` renamed, and that the equations `fs` which are left are
the equations `es` renamed and read from the other side.

One binding keeps this (`Turned.insert`), and so does solving.  The two ways end alike:
with as many bindings, which differ by one renaming, or with errors that differ by one
renaming and the exchange of what was expected and what was found.
-/

namespace BlockGraph

/-- The error with what was expected and what was found exchanged. -/
def TypeError.exchanged : TypeError → TypeError
  | .mismatch kind expected found => .mismatch kind found expected
  | e => e

namespace Equation

/-- The equations with their sides exchanged and their variables renamed. -/
def turned (π : Equiv.Perm TyVar) (es : List Equation) : List Equation :=
  es.map fun e => (e.2.map π, e.1.map π)

theorem turned_cons (π : Equiv.Perm TyVar) (l r : Ty) (es : List Equation) :
    turned π ((l, r) :: es) = (r.map π, l.map π) :: turned π es := rfl

theorem turned_append (π : Equiv.Perm TyVar) (es fs : List Equation) :
    turned π (es ++ fs) = turned π es ++ turned π fs :=
  List.map_append

/-- Replacements that correspond make of equations that correspond such equations again. -/
theorem bindAll_turned {π π' : Equiv.Perm TyVar} {f g : TyVar → Ty}
    (h : ∀ t : Ty, (t.map π).bind g = (t.bind f).map π') (es : List Equation) :
    bindAll g (turned π es) = turned π' (bindAll f es) := by
  simp only [bindAll, turned, List.map_map]
  exact List.map_congr_left fun e _ => by simp only [Function.comp_apply, h]

end Equation

/-- The comparison of the two types from the other side. -/
def Comparison.exchanged : Comparison → Comparison
  | .variables v w => .variables w v
  | .variable v t => .variable v t
  | .parts es => .parts (es.map Prod.swap)
  | .clash kind => .clash kind

theorem compareHeads_exchanged (l r : Ty) :
    compareHeads r l = (compareHeads l r).exchanged := by
  fun_cases compareHeads l r
  case case6 name args name' args' hname =>
    simp [compareHeads, Comparison.exchanged, Ne.symm hname]
  case case7 name args name' args' hname hlen =>
    have hname : name = name' := by simpa using hname
    simp [compareHeads, Comparison.exchanged, hname, Ne.symm hlen]
  case case8 name args name' args' hname hlen =>
    have hname : name = name' := by simpa using hname
    have hlen : args.length = args'.length := by simpa using hlen
    simp [compareHeads, Comparison.exchanged, hname, hlen, List.zip_swap]
  all_goals rfl

theorem compareHeads_turned (π : Equiv.Perm TyVar) (l r : Ty) :
    compareHeads (r.map π) (l.map π) = ((compareHeads l r).exchanged).map π := by
  rw [compareHeads_map, compareHeads_exchanged]

theorem TyTerm.occurs_map (π : Equiv.Perm TyVar) (v : TyVar) (t : Ty) :
    (t.map π).occurs (π v) = t.occurs v := by
  rw [Bool.eq_iff_iff, occurs_iff, occurs_iff, mem_leaves_map_iff]
  constructor
  · rintro ⟨w, hw, heq⟩
    rwa [← π.injective heq]
  · exact fun hv => ⟨v, hv, rfl⟩

namespace Subst

variable {π π' : Equiv.Perm TyVar} {σ τ : Subst} {es fs : List Equation} {v v' : TyVar} {t t' : Ty}

/-- Two ways to solve equations, read from either side, that differ by a renaming so far.  On both
ways the equations that are left have no bound variable. -/
structure Turned (π : Equiv.Perm TyVar) (σ τ : Subst) (es fs : List Equation) : Prop where
  image : ∀ v, τ.image v = (σ.image v).map π
  size : τ.size = σ.size
  equations : fs = Equation.turned π es
  free : ∀ w ∈ Equation.leaves es, σ.image w = .var w
  free' : ∀ w ∈ Equation.leaves fs, τ.image w = .var w

/-- Both ways end with bindings that differ by a renaming, or with errors that do so once what was
expected and what was found are exchanged. -/
inductive TurnedOutcome : Except TypeError Subst → Except TypeError Subst → Prop
  | ok {σ τ : Subst} (π : Equiv.Perm TyVar) (image : ∀ v, τ.image v = (σ.image v).map π)
      (size : τ.size = σ.size) : TurnedOutcome (.ok σ) (.ok τ)
  | error {e : TypeError} (π : Equiv.Perm TyVar) :
      TurnedOutcome (.error e) (.error (e.map π).exchanged)

theorem size_insert (σ : Subst) (v : TyVar) (t : Ty) : (σ.insert v t).size = σ.size + 1 := by
  simp [size, insert]

/-- A variable and a type that may be bound to each other on top of a substitution. -/
structure Bindable (σ : Subst) (v : TyVar) (t : Ty) : Prop where
  var : σ.image v = .var v
  type : t.bind σ.image = t
  occurs : v ∉ t.leaves

theorem Bindable.free_insert (h : σ.Bindable v t)
    (hes : ∀ w ∈ Equation.leaves es, σ.image w = .var w) :
    ∀ w ∈ Equation.leaves (Equation.bindAll (replacing v t) es),
      (σ.insert v t).image w = .var w := by
  rw [image_insert h.var]
  exact extend_eq_var hes h.type h.occurs

namespace Turned

/-- One binding on both ways.  The two bindings may need another renaming than what was bound
before. -/
theorem insert (h : Turned π σ τ es fs) (hσ : σ.Bindable v t) (hτ : τ.Bindable v' t')
    (hreplacing : ∀ u : Ty, (u.map π).bind (replacing v' t') = (u.bind (replacing v t)).map π') :
    Turned π' (σ.insert v t) (τ.insert v' t') (Equation.bindAll (replacing v t) es)
      (Equation.bindAll (replacing v' t') fs) where
  image x := by
    rw [image_insert hσ.var, image_insert hτ.var, extend, extend, h.image, hreplacing]
  size := by rw [size_insert, size_insert, h.size]
  equations := by rw [h.equations, Equation.bindAll_turned hreplacing]
  free := hσ.free_insert h.free
  free' := hτ.free_insert h.free'

theorem tail {l r : Ty} (h : Turned π σ τ ((l, r) :: es) fs) :
    Turned π σ τ es (Equation.turned π es) where
  image := h.image
  size := h.size
  equations := rfl
  free w hw := h.free w (by simp [hw])
  free' w hw := h.free' w (by rw [h.equations, Equation.turned_cons]; simp [hw])

end Turned

theorem solveAll_turned (σ : Subst) (es : List Equation) (h : Turned π σ τ es fs) :
    TurnedOutcome (σ.solveAll es) (τ.solveAll fs) := by
  induction σ, es using solveAll.induct generalizing π τ fs with
  | case1 σ =>
    rw [h.equations, solveAll, Equation.turned, List.map_nil, solveAll]
    exact .ok π h.image h.size
  | case2 σ l r rest w hc ih =>
    have hc' := compareHeads_turned π l r
    rw [hc] at hc'
    rw [h.equations, Equation.turned_cons, solveAll_cons, hc, solveAll_cons, hc']
    simp only [Comparison.exchanged, Comparison.map, if_true]
    exact ih h.tail
  | case3 σ l r rest v w hc hvw ih =>
    have hc' := compareHeads_turned π l r
    rw [hc] at hc'
    obtain ⟨rfl, rfl⟩ := compareHeads_variables hc
    have hwv : π w ≠ π v := fun heq => hvw (π.injective heq).symm
    have hσ : σ.Bindable v (.var w) :=
      ⟨h.free v (by simp), h.free w (by simp), fun hmem => hvw (List.mem_singleton.mp hmem)⟩
    have hfree' := h.free'
    rw [h.equations, Equation.turned_cons] at hfree'
    have hτ : τ.Bindable (π w) (.var (π v)) :=
      ⟨hfree' (π w) (by simp), hfree' (π v) (by simp), fun hmem => hwv (List.mem_singleton.mp hmem)⟩
    rw [h.equations, Equation.turned_cons, solveAll_cons, hc, solveAll_cons, hc']
    simp only [Comparison.exchanged, Comparison.map, hvw, hwv, if_false]
    exact ih (h.tail.insert hσ hτ fun u => bind_replacing_swap π v w u)
  | case4 σ l r rest v t hc hocc =>
    have hc' := compareHeads_turned π l r
    rw [hc] at hc'
    rw [h.equations, Equation.turned_cons, solveAll_cons, hc, solveAll_cons, hc']
    simp only [Comparison.exchanged, Comparison.map, TyTerm.occurs_map, hocc, if_true]
    exact .error (e := .occurs v t) π
  | case5 σ l r rest v t hc hocc ih =>
    have hc' := compareHeads_turned π l r
    rw [hc] at hc'
    have hσ : σ.Bindable v t :=
      ⟨(unbound_of_variable hc h.free).1, (unbound_of_variable hc h.free).2,
        fun hmem => hocc (TyTerm.occurs_iff.mpr hmem)⟩
    have hfree' := h.free'
    rw [h.equations, Equation.turned_cons] at hfree'
    have hτ : τ.Bindable (π v) (t.map π) := by
      obtain ⟨hv, ht⟩ := unbound_of_variable hc' hfree'
      refine ⟨hv, ht, fun hmem => hocc ?_⟩
      rwa [← TyTerm.occurs_map π, TyTerm.occurs_iff]
    rw [h.equations, Equation.turned_cons, solveAll_cons, hc, solveAll_cons, hc']
    simp only [Comparison.exchanged, Comparison.map, TyTerm.occurs_map, hocc, Bool.false_eq_true,
      if_false]
    exact ih (h.tail.insert hσ hτ fun u =>
      bind_replacing_map (fun _ _ heq => π.injective heq) v t u)
  | case6 σ l r rest equations hc ih =>
    have hc' := compareHeads_turned π l r
    rw [hc] at hc'
    have hparts : Equation.bindAll (fun v => .var (π v)) (equations.map Prod.swap) =
        Equation.turned π equations := by
      simp only [Equation.bindAll, Equation.turned, List.map_map]
      rfl
    have hturned : Turned π σ τ (equations ++ rest) (Equation.turned π (equations ++ rest)) := by
      refine ⟨h.image, h.size, rfl, fun w hw => h.free w (leaves_of_parts hc hw), ?_⟩
      intro w hw
      rw [Equation.turned_append, ← hparts] at hw
      refine h.free' w ?_
      rw [h.equations, Equation.turned_cons]
      exact leaves_of_parts hc' hw
    rw [h.equations, Equation.turned_cons, solveAll_cons, hc, solveAll_cons, hc']
    simp only [Comparison.exchanged, Comparison.map, hparts, ← Equation.turned_append]
    exact ih hturned
  | case7 σ l r rest kind hc =>
    have hc' := compareHeads_turned π l r
    rw [hc] at hc'
    rw [h.equations, Equation.turned_cons, solveAll_cons, hc, solveAll_cons, hc']
    exact .error (e := .mismatch kind l r) π

theorem unify_turned (a b : Ty) : TurnedOutcome (BlockGraph.unify a b) (BlockGraph.unify b a) := by
  have hempty : ∀ t : Ty, empty.apply t = t := TyTerm.bind_self
  have hequations : [(empty.apply b, empty.apply a)] =
      Equation.turned (Equiv.refl TyVar) [(empty.apply a, empty.apply b)] := by
    simp only [hempty, Equation.turned, List.map_cons, List.map_nil]
    exact congrArg₂ (fun l r => [(l, r)]) (TyTerm.bind_self b).symm (TyTerm.bind_self a).symm
  exact solveAll_turned empty _
    ⟨fun v => rfl, rfl, hequations, fun w _ => rfl, fun w _ => rfl⟩

end Subst

/-- It does not matter for the outcome which of two types stands on the left.  Either both ways
succeed, with as many variables bound and with results that differ by one renaming for all types, or
both fail with the same kind of error, about types that differ by one renaming, where what is
expected on the one way is found on the other. -/
theorem unify_symmetric (a b : Ty) :
    (∃ σ τ : Subst, unify a b = .ok σ ∧ unify b a = .ok τ ∧
      (σ.domain.Nodup ∧ τ.domain.Nodup ∧ τ.domain.length = σ.domain.length) ∧
      ∃ π : Equiv.Perm TyVar, ∀ ts : List Ty,
        ts.map τ.apply = (ts.map σ.apply).map (TyTerm.map π)) ∨
    ∃ (e : TypeError) (π : Equiv.Perm TyVar), unify a b = .error e ∧
      unify b a = .error (e.map π).exchanged := by
  have houtcome := Subst.unify_turned a b
  generalize hab : unify a b = forward at houtcome
  generalize hba : unify b a = backward at houtcome
  cases houtcome with
  | @ok σ τ π himage hsize =>
    have hσ : σ.Normal := Subst.Normal.empty.unify hab
    have hτ : τ.Normal := Subst.Normal.empty.unify hba
    have hlength : τ.domain.length = σ.domain.length := by
      simpa only [Subst.domain, List.length_map, Subst.size] using hsize
    refine .inl ⟨σ, τ, rfl, rfl, ⟨hσ.nodup, hτ.nodup, hlength⟩, π, fun ts => ?_⟩
    rw [List.map_map]
    refine List.map_congr_left fun t _ => ?_
    show t.bind τ.image = (t.bind σ.image).map π
    rw [TyTerm.map_bind]
    exact TyTerm.bind_congr fun v _ => himage v
  | @error e π => exact .inr ⟨e, π, rfl, rfl⟩

end BlockGraph
