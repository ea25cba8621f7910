import BlockGraph.Proofs.Unification.Substitution

/-!
# What a failed unification reports

When two types cannot be made equal, the error names a pair of types.  The pair is the
reason for the failure: no replacement of variables makes it equal, and it would have to
be equal if the two given types were.

The second half says little about types alone, since no replacement makes the given types
equal either.  It is therefore shown for every interpretation of types in which equal
literals of one name and number of arguments have equal arguments, and equal arrows have
equal parts.  Different names may well stand for the same there, and a variable may
be equal to a list of itself.  So the reported pair follows from the equation by taking types
apart and by replacing equals by equals, which is all that solving does.
-/

namespace BlockGraph

/-! ## Interpretations -/

/-- An interpretation of types that allows to take them apart. -/
structure Interpretation (α : Type) where
  lit : String → List α → α
  fn : α → α → α
  lit_inj : ∀ {name as bs}, as.length = bs.length → lit name as = lit name bs → as = bs
  fn_inj : ∀ {a b a' b'}, fn a b = fn a' b' → a = a' ∧ b = b'

namespace Interpretation

variable {es : List Equation} {l r t : Ty} {v : TyVar}

variable {α : Type} (I : Interpretation α) {f : TyVar → α}

mutual

/-- What a type stands for when its variables stand for values. -/
def eval (f : TyVar → α) : Ty → α
  | .var v => f v
  | .lit name args => I.lit name (evalAll f args)
  | .fn domain codomain => I.fn (eval f domain) (eval f codomain)

def evalAll (f : TyVar → α) : List Ty → List α
  | [] => []
  | t :: rest => eval f t :: evalAll f rest

end

theorem evalAll_eq_map (f : TyVar → α) (ts : List Ty) : I.evalAll f ts = ts.map (I.eval f) := by
  induction ts with
  | nil => rfl
  | cons t rest ih => rw [evalAll, ih, List.map_cons]

theorem eval_var (f : TyVar → α) (v : TyVar) : I.eval f (.var v) = f v := by
  rw [eval]

theorem eval_lit (f : TyVar → α) (name : String) (args : List Ty) :
    I.eval f (.lit name args) = I.lit name (args.map (I.eval f)) := by
  rw [eval, evalAll_eq_map]

theorem eval_fn (f : TyVar → α) (domain codomain : Ty) :
    I.eval f (.fn domain codomain) = I.fn (I.eval f domain) (I.eval f codomain) := by
  rw [eval]

/-- Replacing variables by types that stand for the same changes nothing. -/
theorem eval_bind {g : TyVar → Ty} (hg : ∀ v ∈ t.leaves, I.eval f (g v) = f v) :
    I.eval f (t.bind g) = I.eval f t := by
  induction t using TyTerm.induct with
  | var v =>
    rw [TyTerm.bind_var, hg v (by simp), eval_var]
  | lit name args ih =>
    rw [TyTerm.bind_lit, eval_lit, eval_lit, List.map_map]
    refine congrArg (I.lit name) (List.map_congr_left fun t ht => ih t ht fun v hv => hg v ?_)
    rw [TyTerm.leaves_lit]
    exact List.mem_flatMap.mpr ⟨t, ht, hv⟩
  | fn domain codomain ihd ihc =>
    rw [TyTerm.bind_fn, eval_fn, eval_fn, ihd fun v hv => hg v (List.mem_append_left _ hv),
      ihc fun v hv => hg v (List.mem_append_right _ hv)]

theorem eval_bind_replacing (h : f v = I.eval f t) (u : Ty) :
    I.eval f (u.bind (replacing v t)) = I.eval f u := by
  refine I.eval_bind fun w _ => ?_
  by_cases hw : w = v
  · rw [hw, replacing_self, h]
  · rw [replacing_of_ne t hw, eval_var]

theorem eval_apply {σ : Subst} (h : ∀ v u, σ.get? v = some u → f v = I.eval f u) (t : Ty) :
    I.eval f (σ.apply t) = I.eval f t := by
  refine I.eval_bind fun v _ => ?_
  rw [Subst.image]
  cases hv : σ.get? v with
  | none => rw [Option.getD_none, eval_var]
  | some u => rw [Option.getD_some, h v u hv]

def Holds (f : TyVar → α) (es : List Equation) : Prop :=
  ∀ e ∈ es, I.eval f e.1 = I.eval f e.2

theorem holds_cons : I.Holds f ((l, r) :: es) ↔ I.eval f l = I.eval f r ∧ I.Holds f es :=
  List.forall_mem_cons

theorem Holds.bindAll_replacing (h : I.Holds f es) (hv : f v = I.eval f t) :
    I.Holds f (Equation.bindAll (replacing v t) es) := by
  intro e he
  obtain ⟨e, hmem, rfl⟩ := List.mem_map.mp he
  simp only [I.eval_bind_replacing hv]
  exact h e hmem

/-- The equation between a variable and a type, whichever side the variable stands on. -/
theorem eval_of_variable (hc : compareHeads l r = .variable v t) (h : I.eval f l = I.eval f r) :
    f v = I.eval f t := by
  rcases compareHeads_variable hc with ⟨rfl, rfl⟩ | ⟨rfl, rfl⟩
  · rw [← h, eval_var]
  · rw [h, eval_var]

/-- Equal types have equal parts. -/
theorem holds_parts (hc : compareHeads l r = .parts es) (h : I.eval f l = I.eval f r) :
    I.Holds f es := by
  revert hc h
  fun_cases compareHeads l r <;> try simp
  case case8 name args name' args' hname hlen =>
    rintro rfl h ⟨a, b⟩ he
    obtain rfl : name = name' := Classical.not_not.mp hname
    rw [eval_lit, eval_lit] at h
    have hmap := I.lit_inj (by simpa using hlen) h
    obtain ⟨k, hk⟩ := List.mem_iff_getElem?.mp he
    obtain ⟨ha, hb⟩ := List.getElem?_zip_eq_some.mp hk
    have hat := congrArg (·[k]?) hmap
    simpa [ha, hb] using hat
  case case9 domain codomain domain' codomain' =>
    rintro rfl h
    rw [eval_fn, eval_fn] at h
    obtain ⟨hdomain, hcodomain⟩ := I.fn_inj h
    exact I.holds_cons.mpr ⟨hdomain, I.holds_cons.mpr
      ⟨hcodomain, fun _ he => absurd he List.not_mem_nil⟩⟩

/-- Types stand for themselves. -/
def types : Interpretation Ty where
  lit := .lit
  fn := .fn
  lit_inj _ h := (TyTerm.lit.inj h).2
  fn_inj h := TyTerm.fn.inj h

theorem eval_types (f : TyVar → Ty) (t : Ty) : types.eval f t = t.bind f := by
  induction t using TyTerm.induct with
  | var v => rw [eval_var, TyTerm.bind_var]
  | lit name args ih =>
    rw [eval_lit, TyTerm.bind_lit, List.map_congr_left ih]
    rfl
  | fn domain codomain ihd ihc =>
    rw [eval_fn, TyTerm.bind_fn, ihd, ihc]
    rfl

end Interpretation

/-! ## Reported pairs -/

/-- The pair of types that an error reports, with what is wrong with it. -/
inductive TypeError.Obstruction : TypeError → Ty → Ty → Prop
  /-- Two literals have different names. -/
  | name {n m : String} {as bs : List Ty} (h : n ≠ m) :
    Obstruction (.mismatch .name (.lit n as) (.lit m bs)) (.lit n as) (.lit m bs)
  /-- Two literals of one name have different numbers of arguments. -/
  | arity {n : String} {as bs : List Ty} (h : as.length ≠ bs.length) :
    Obstruction (.mismatch .arity (.lit n as) (.lit n bs)) (.lit n as) (.lit n bs)
  | arrowLiteral {d c : Ty} {n : String} {as : List Ty} :
    Obstruction (.mismatch .arity (.fn d c) (.lit n as)) (.fn d c) (.lit n as)
  | literalArrow {n : String} {as : List Ty} {d c : Ty} :
    Obstruction (.mismatch .arity (.lit n as) (.fn d c)) (.lit n as) (.fn d c)
  /-- A variable occurs in a type other than itself. -/
  | occurs {v : TyVar} {t : Ty} (hv : v ∈ t.leaves) (ht : t ≠ .var v) :
    Obstruction (.occurs v t) (.var v) t

namespace TypeError.Obstruction

variable {e : TypeError} {a b l r : Ty}

theorem bind_ne (h : e.Obstruction a b) (f : TyVar → Ty) : a.bind f ≠ b.bind f := by
  cases h with
  | name h =>
    intro heq
    rw [TyTerm.bind_lit, TyTerm.bind_lit] at heq
    exact h (TyTerm.lit.inj heq).1
  | arity h =>
    intro heq
    rw [TyTerm.bind_lit, TyTerm.bind_lit] at heq
    exact h (by simpa using congrArg List.length (TyTerm.lit.inj heq).2)
  | arrowLiteral =>
    rw [TyTerm.bind_fn, TyTerm.bind_lit]
    intro heq
    cases heq
  | literalArrow =>
    rw [TyTerm.bind_fn, TyTerm.bind_lit]
    intro heq
    cases heq
  | occurs hv ht => exact TyTerm.ne_bind_of_mem_leaves hv ht

theorem of_clash {kind : Mismatch} (hc : compareHeads l r = .clash kind) :
    (TypeError.mismatch kind l r).Obstruction l r := by
  revert hc
  fun_cases compareHeads l r <;> try simp
  case case6 name args name' args' hname =>
    rintro rfl
    exact .name hname
  case case7 name args name' args' hname hlen =>
    rintro rfl
    obtain rfl : name = name' := Classical.not_not.mp hname
    exact .arity hlen
  case case10 =>
    rintro rfl
    exact .literalArrow
  case case11 =>
    rintro rfl
    exact .arrowLiteral

end TypeError.Obstruction

namespace Subst

open Interpretation

variable {σ : Subst} {e : TypeError} {l r : Ty} {es : List Equation}

/-- The pair that an error reports follows from the equations. -/
structure Reported (e : TypeError) (es : List Equation) (a b : Ty) : Prop where
  obstruction : e.Obstruction a b
  follows : ∀ {α : Type} (I : Interpretation α) (f : TyVar → α),
    I.Holds f es → I.eval f a = I.eval f b

/-- What follows from the equations that are left after a step follows from those before it. -/
theorem Reported.of_step {es' : List Equation} {a b : Ty} (h : Reported e es' a b)
    (hstep : ∀ {α : Type} (I : Interpretation α) (f : TyVar → α), I.Holds f es → I.Holds f es') :
    Reported e es a b :=
  ⟨h.obstruction, fun I f hf => h.follows I f (hstep I f hf)⟩

theorem solveAll_error (σ : Subst) (es : List Equation) (h : σ.solveAll es = .error e) :
    ∃ a b, Reported e es a b := by
  induction σ, es using solveAll.induct with
  | case1 σ =>
    rw [solveAll] at h
    cases h
  | case2 σ l r rest w hc ih =>
    rw [solveAll_cons, hc] at h
    simp only [if_true] at h
    obtain ⟨a, b, hab⟩ := ih h
    exact ⟨a, b, hab.of_step fun I f hf => (I.holds_cons.mp hf).2⟩
  | case3 σ l r rest v w hc hvw ih =>
    rw [solveAll_cons, hc] at h
    simp only [hvw, if_false] at h
    obtain ⟨rfl, rfl⟩ := compareHeads_variables hc
    obtain ⟨a, b, hab⟩ := ih h
    refine ⟨a, b, hab.of_step fun I f hf => ?_⟩
    obtain ⟨hfirst, hrest⟩ := I.holds_cons.mp hf
    exact hrest.bindAll_replacing I (by simpa only [eval_var] using hfirst)
  | case4 σ l r rest v t hc hocc =>
    rw [solveAll_cons, hc] at h
    simp only [hocc, if_true] at h
    cases h
    refine ⟨.var v, t, .occurs (TyTerm.occurs_iff.mp hocc) (compareHeads_variable_ne hc v),
      fun I f hf => ?_⟩
    rw [I.eval_var, I.eval_of_variable hc (I.holds_cons.mp hf).1]
  | case5 σ l r rest v t hc hocc ih =>
    rw [solveAll_cons, hc] at h
    simp only [hocc, Bool.false_eq_true, if_false] at h
    obtain ⟨a, b, hab⟩ := ih h
    refine ⟨a, b, hab.of_step fun I f hf => ?_⟩
    obtain ⟨hfirst, hrest⟩ := I.holds_cons.mp hf
    exact hrest.bindAll_replacing I (I.eval_of_variable hc hfirst)
  | case6 σ l r rest equations hc ih =>
    rw [solveAll_cons, hc] at h
    obtain ⟨a, b, hab⟩ := ih h
    refine ⟨a, b, hab.of_step fun I f hf => ?_⟩
    obtain ⟨hfirst, hrest⟩ := I.holds_cons.mp hf
    exact List.forall_mem_append.mpr ⟨I.holds_parts hc hfirst, hrest⟩
  | case7 σ l r rest kind hc =>
    rw [solveAll_cons, hc] at h
    cases h
    exact ⟨l, r, .of_clash hc, fun I f hf => (I.holds_cons.mp hf).1⟩

/-- A failed unification reports a pair of types that cannot be made equal and that the equation
between the given types makes equal, under the bindings that were there.  So no map that satisfies
these bindings makes the given types equal. -/
theorem unify_error_obstructed (h : σ.unify l r = .error e) :
    ∃ a b : Ty, e.Obstruction a b ∧
      (∀ {α : Type} (I : Interpretation α) (f : TyVar → α),
        (∀ v u, σ.get? v = some u → f v = I.eval f u) → I.eval f l = I.eval f r →
          I.eval f a = I.eval f b) ∧
      (∀ f : TyVar → Ty, (∀ v u, σ.get? v = some u → f v = u.bind f) → l.bind f = r.bind f →
        a.bind f = b.bind f) ∧
      (∀ f : TyVar → Ty, a.bind f ≠ b.bind f) ∧
      ∀ f : TyVar → Ty, (∀ v u, σ.get? v = some u → f v = u.bind f) → l.bind f ≠ r.bind f := by
  obtain ⟨a, b, hab⟩ := solveAll_error σ _ h
  have hfollows : ∀ {α : Type} (I : Interpretation α) (f : TyVar → α),
      (∀ v u, σ.get? v = some u → f v = I.eval f u) → I.eval f l = I.eval f r →
        I.eval f a = I.eval f b := by
    intro α I f hσ hlr
    refine hab.follows I f (I.holds_cons.mpr ⟨?_, fun _ he => absurd he List.not_mem_nil⟩)
    rw [I.eval_apply hσ, I.eval_apply hσ, hlr]
  have htypes : ∀ f : TyVar → Ty, (∀ v u, σ.get? v = some u → f v = u.bind f) →
      l.bind f = r.bind f → a.bind f = b.bind f := by
    intro f hσ hlr
    simpa only [eval_types] using
      hfollows types f (by simpa only [eval_types] using hσ) (by simpa only [eval_types] using hlr)
  exact ⟨a, b, hab.obstruction, hfollows, htypes, hab.obstruction.bind_ne,
    fun f hσ hlr => hab.obstruction.bind_ne f (htypes f hσ hlr)⟩

/-- Here `0` is bound to `List 1` beforehand.  The equation `0 -> 1 = List Bool -> Number` first
binds `1` to `Bool`, and then `Bool` meets `Number`. -/
theorem unify_error_obstructed_arrows :
    ∃ σ : Subst, singleton 0 (.lit "List" [.var 1]) = .ok σ ∧
      σ.unify (.fn (.var 0) (.var 1)) (.fn (.lit "List" [.lit "Bool" []]) (.lit "Number" [])) =
        .error (.mismatch .name (.lit "Bool" []) (.lit "Number" [])) ∧
      ∀ f : TyVar → Ty, (∀ v u, σ.get? v = some u → f v = u.bind f) →
        (TyTerm.fn (.var 0) (.var 1)).bind f ≠
          (TyTerm.fn (.lit "List" [.lit "Bool" []]) (.lit "Number" [])).bind f := by
  have hs : singleton 0 (.lit "List" [.var 1]) = .ok ⟨[(0, .lit "List" [.var 1])]⟩ := by
    simp [singleton, Subst.bind, Subst.unify, solveAll_cons, solveAll, compareHeads, apply, image,
      get?, TyTerm.occurs, insert, Equation.bindAll, empty]
  have hu : Subst.unify ⟨[(0, .lit "List" [.var 1])]⟩ (.fn (.var 0) (.var 1))
      (.fn (.lit "List" [.lit "Bool" []]) (.lit "Number" [])) =
        .error (.mismatch .name (.lit "Bool" []) (.lit "Number" [])) := by
    simp [Subst.unify, solveAll_cons, compareHeads, apply, image, get?, List.lookup_cons,
      TyTerm.occurs, Equation.bindAll, replacing]
  obtain ⟨_, _, _, _, _, _, hnone⟩ := unify_error_obstructed hu
  exact ⟨_, hs, hu, hnone⟩

end Subst
end BlockGraph
