import BlockGraph.Proofs.Unification.Substitution
import Mathlib.Logic.Function.Basic

/-!
# Substitutions stay dereferenced

A substitution is normal if it binds each variable once and no type in its range
mentions a variable that it binds.  Then one pass of replacement is complete: what it
gives has no bound variable left, and a second pass changes nothing.

A new binding keeps a substitution normal if its variable and the variables of its
type are not bound yet, and its type does not mention its variable.  Solving equations
adds such bindings only, because the substitution has been applied to all equations that
are still to be solved.
-/

namespace BlockGraph
namespace Subst

variable {σ σ' : Subst} {v w : TyVar} {t l r : Ty}

def domain (σ : Subst) : List TyVar :=
  σ.bindings.map Prod.fst

/-- Each variable is bound once, and no type in the range mentions a bound variable. -/
structure Normal (σ : Subst) : Prop where
  nodup : σ.domain.Nodup
  range : ∀ b ∈ σ.bindings, ∀ w ∈ b.2.leaves, w ∉ σ.domain

theorem get?_eq_none_iff : σ.get? v = none ↔ v ∉ σ.domain := by
  rw [get?, List.lookup_eq_none_iff, domain, List.mem_map, not_exists]
  refine forall_congr' fun b => ?_
  rw [not_and, bne_iff_ne, ne_comm]

theorem image_of_unbound (h : v ∉ σ.domain) : σ.image v = .var v := by
  rw [image, get?_eq_none_iff.mpr h, Option.getD_none]

theorem domain_insert (σ : Subst) (v : TyVar) (t : Ty) :
    (σ.insert v t).domain = v :: σ.domain := by
  simp [domain, insert, Function.comp_def]

theorem mem_bindings_of_get? (h : σ.get? v = some t) : (v, t) ∈ σ.bindings := by
  obtain ⟨before, after, heq, _⟩ := List.lookup_eq_some_iff.mp h
  rw [heq]
  exact List.mem_append_right before List.mem_cons_self

/-! ## What a normal substitution does -/

namespace Normal

theorem empty : Subst.empty.Normal :=
  ⟨List.nodup_nil, fun _ hb => absurd hb List.not_mem_nil⟩

theorem image (h : σ.Normal) (hw : w ∈ (σ.image v).leaves) : w ∉ σ.domain := by
  cases hv : σ.get? v with
  | none =>
    have hunbound := get?_eq_none_iff.mp hv
    rw [image_of_unbound hunbound, TyTerm.leaves_var, List.mem_singleton] at hw
    rwa [hw]
  | some u =>
    rw [Subst.image, hv, Option.getD_some] at hw
    exact h.range (v, u) (mem_bindings_of_get? hv) w hw

theorem apply (h : σ.Normal) (hw : w ∈ (σ.apply t).leaves) : w ∉ σ.domain := by
  obtain ⟨v, _, hw⟩ := TyTerm.mem_leaves_bind_iff.mp hw
  exact h.image hw

theorem apply_apply (h : σ.Normal) (t : Ty) : σ.apply (σ.apply t) = σ.apply t :=
  TyTerm.bind_eq_self_iff.mpr fun _ hw => image_of_unbound (h.apply hw)

/-! ## One binding more -/

theorem insert (h : σ.Normal) (hv : v ∉ σ.domain) (ht : ∀ w ∈ t.leaves, w ∉ σ.domain)
    (hvt : v ∉ t.leaves) : (σ.insert v t).Normal := by
  have htype : ∀ w ∈ t.leaves, w ∉ v :: σ.domain := by
    intro w hw hmem
    rcases List.mem_cons.mp hmem with rfl | hmem
    · exact hvt hw
    · exact ht w hw hmem
  refine ⟨domain_insert σ v t ▸ List.nodup_cons.mpr ⟨hv, h.nodup⟩, fun b hb w hw => ?_⟩
  rw [domain_insert]
  rcases List.mem_cons.mp hb with rfl | hb
  · exact htype w hw
  -- In an old binding, the new one has been carried out.
  obtain ⟨b, hold, rfl⟩ := List.mem_map.mp hb
  obtain ⟨x, hx, hw⟩ := TyTerm.mem_leaves_bind_iff.mp hw
  by_cases hxv : x = v
  · rw [hxv, replacing_self] at hw
    exact htype w hw
  · rw [replacing_of_ne t hxv, TyTerm.leaves_var, List.mem_singleton] at hw
    rw [hw]
    exact List.not_mem_cons_of_ne_of_not_mem hxv (h.range b hold x hx)

end Normal

/-- After a new binding has been carried out in equations, their variables are not bound by the
larger substitution. -/
theorem unbound_bindAll {es : List Equation} (hes : ∀ w ∈ Equation.leaves es, w ∉ σ.domain)
    (ht : ∀ w ∈ t.leaves, w ∉ σ.domain) (hvt : v ∉ t.leaves) :
    ∀ w ∈ Equation.leaves (Equation.bindAll (replacing v t) es), w ∉ (σ.insert v t).domain := by
  intro w hw
  obtain ⟨x, hx, hw⟩ := Equation.mem_leaves_bindAll hw
  have hkept : w ∉ σ.domain ∧ w ≠ v := by
    by_cases hxv : x = v
    · rw [hxv, replacing_self] at hw
      exact ⟨ht w hw, fun he => hvt (he ▸ hw)⟩
    · rw [replacing_of_ne t hxv, TyTerm.leaves_var, List.mem_singleton] at hw
      rw [hw]
      exact ⟨hes x hx, hxv⟩
  rw [domain_insert]
  exact List.not_mem_cons_of_ne_of_not_mem hkept.2 hkept.1

/-! ## Solving -/

/-- Solving keeps a substitution normal that has been applied to the equations. -/
theorem solveAll_normal (σ : Subst) (es : List Equation) (hσ : σ.Normal)
    (hes : ∀ w ∈ Equation.leaves es, w ∉ σ.domain) (h : σ.solveAll es = .ok σ') : σ'.Normal := by
  induction σ, es using solveAll.induct with
  | case1 σ =>
    rw [solveAll, Except.ok.injEq] at h
    rwa [← h]
  | case2 σ l r rest w hc ih =>
    rw [solveAll_cons, hc] at h
    simp only [if_true] at h
    exact ih hσ (fun v hv => hes v (by simp [hv])) h
  | case3 σ l r rest v w hc hvw ih =>
    rw [solveAll_cons, hc] at h
    simp only [hvw, if_false] at h
    obtain ⟨rfl, rfl⟩ := compareHeads_variables hc
    have hw : ∀ x ∈ (TyTerm.var w).leaves, x ∉ σ.domain := fun x hx => hes x (by simp_all)
    have hv : v ∉ (TyTerm.var w).leaves := fun hmem => hvw (List.mem_singleton.mp hmem)
    exact ih (hσ.insert (hes v (by simp)) hw hv)
      (unbound_bindAll (fun x hx => hes x (by simp [hx])) hw hv) h
  | case4 σ l r rest v t hc hocc =>
    rw [solveAll_cons, hc] at h
    simp only [hocc, if_true] at h
    cases h
  | case5 σ l r rest v t hc hocc ih =>
    rw [solveAll_cons, hc] at h
    simp only [hocc, Bool.false_eq_true, if_false] at h
    have hvt : v ∉ t.leaves := fun hmem => hocc (TyTerm.occurs_iff.mpr hmem)
    have hv : v ∉ σ.domain := hes v (leaves_of_variable hc (.inl rfl))
    have ht : ∀ w ∈ t.leaves, w ∉ σ.domain := fun w hw => hes w (leaves_of_variable hc (.inr hw))
    exact ih (hσ.insert hv ht hvt) (unbound_bindAll (fun x hx => hes x (by simp [hx])) ht hvt) h
  | case6 σ l r rest equations hc ih =>
    rw [solveAll_cons, hc] at h
    exact ih hσ (fun v hv => hes v (leaves_of_parts hc hv)) h
  | case7 σ l r rest kind hc =>
    rw [solveAll_cons, hc] at h
    cases h

namespace Normal

theorem unify (hσ : σ.Normal) (h : σ.unify l r = .ok σ') : σ'.Normal := by
  refine solveAll_normal σ _ hσ (fun w hw => ?_) h
  have hw : w ∈ (σ.apply l).leaves ∨ w ∈ (σ.apply r).leaves := by
    simpa [Equation.leaves] using hw
  exact hw.elim hσ.apply hσ.apply

theorem bindAll {bindings : List (TyVar × Ty)} (hσ : σ.Normal)
    (h : σ.bindAll bindings = .ok σ') : σ'.Normal := by
  induction bindings generalizing σ with
  | nil =>
    cases h
    exact hσ
  | cons b rest ih =>
    rw [Subst.bindAll] at h
    cases hb : σ.bind b.1 b.2 with
    | ok τ =>
      rw [hb] at h
      exact ih (hσ.unify hb) h
    | error e =>
      rw [hb] at h
      cases h

end Normal

end Subst
end BlockGraph
