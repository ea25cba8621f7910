import BlockGraph.Proofs.Unification.MostGeneral

/-!
# Unification gives most general solutions

A substitution that has been built by binding and unifying is dereferenced: its
image of a variable mentions no variable that it binds, so reading through it
twice is reading through it once.  On such a substitution `Subst.unify` either
extends the bindings by exactly the equation that it was given, or fails and then
no solution of the bindings solves the equation.  `unify_mostGeneral` spells the
first half out for types instead of variables.
-/

namespace BlockGraph
namespace Subst

variable {l r t : Ty} {v : TyVar} {σ : Subst}

/-- No type in the range mentions a variable that is bound. -/
def Dereferenced (σ : Subst) : Prop :=
  Absorbs σ.image σ.image

theorem empty_image : empty.image = .var := rfl

theorem empty_dereferenced : empty.Dereferenced := absorbs_var _

theorem lookup_map_snd {κ α β : Type} [BEq κ] (f : α → β) (v : κ) (bindings : List (κ × α)) :
    (bindings.map fun b => (b.1, f b.2)).lookup v = (bindings.lookup v).map f := by
  induction bindings with
  | nil => rfl
  | cons b rest ih =>
    rw [List.map_cons, List.lookup_cons, List.lookup_cons]
    cases v == b.1
    · exact ih
    · rfl

theorem image_insert (hv : σ.image v = .var v) (t : Ty) :
    (σ.insert v t).image = extend σ.image v t := by
  funext w
  by_cases hw : w = v
  · rw [hw, extend, hv, TyTerm.bind_var, replacing_self]
    simp [image, get?, insert]
  · have hne : (w == v) = false := by simpa using hw
    rw [extend, image, image, get?, get?, insert]
    simp only [List.lookup_cons, hne, lookup_map_snd]
    cases σ.bindings.lookup w with
    | none => exact (replacing_of_ne t hw).symm
    | some u => rfl

/-! ## Solving -/

theorem solveAll_cons (σ : Subst) (l r : Ty) (rest : List Equation) :
    σ.solveAll ((l, r) :: rest) =
      match compareHeads l r with
      | .variables v w =>
        if v = w then σ.solveAll rest
        else (σ.insert v (.var w)).solveAll (Equation.bindAll (replacing v (.var w)) rest)
      | .variable v t =>
        if t.occurs v then .error (.occurs v t)
        else (σ.insert v t).solveAll (Equation.bindAll (replacing v t) rest)
      | .parts equations => σ.solveAll (equations ++ rest)
      | .clash kind => .error (.mismatch kind l r) := by
  rw [solveAll]
  split <;> simp_all

theorem unbound_of_variable {rest : List Equation} (hc : compareHeads l r = .variable v t)
    (hes : ∀ w ∈ Equation.leaves ((l, r) :: rest), σ.image w = .var w) :
    σ.image v = .var v ∧ t.bind σ.image = t := by
  rw [TyTerm.bind_eq_self_iff]
  exact ⟨hes v (leaves_of_variable hc (.inl rfl)),
    fun w hw => hes w (leaves_of_variable hc (.inr hw))⟩

private theorem resolved_insert {rest : List Equation}
    (hrest : ∀ w ∈ Equation.leaves rest, σ.image w = .var w)
    (hlr : ∀ f : TyVar → Ty, l.bind f = r.bind f ↔ f v = t.bind f) (hv : σ.image v = .var v)
    (ht : t.bind σ.image = t) (hvt : v ∉ t.leaves) (hd : σ.Dereferenced)
    (ih : (σ.insert v t).Dereferenced →
      (∀ w ∈ Equation.leaves (Equation.bindAll (replacing v t) rest),
        (σ.insert v t).image w = .var w) →
      Resolved (σ.insert v t).image (Equation.bindAll (replacing v t) rest)
        (((σ.insert v t).solveAll (Equation.bindAll (replacing v t) rest)).map image)) :
    Resolved σ.image ((l, r) :: rest)
      (((σ.insert v t).solveAll (Equation.bindAll (replacing v t) rest)).map image) := by
  rw [Dereferenced, image_insert hv] at ih
  exact Resolved.of_extend hv hlr
    (ih (extend_idempotent hd hv ht hvt) (extend_eq_var hrest ht hvt))

/-- Solving equations on top of a dereferenced substitution adds just these equations, or fails if
that is impossible.  The substitution has been applied to the equations. -/
theorem solveAll_resolved (σ : Subst) (es : List Equation) (hd : σ.Dereferenced)
    (hes : ∀ w ∈ Equation.leaves es, σ.image w = .var w) :
    Resolved σ.image es ((σ.solveAll es).map image) := by
  induction σ, es using solveAll.induct with
  | case1 σ =>
    rw [solveAll]
    exact ⟨hd, fun h => ⟨fun hz => ⟨hz, solves_nil h⟩, And.left⟩⟩
  | case2 σ l r rest w hc ih =>
    rw [solveAll_cons, hc]
    obtain ⟨rfl, rfl⟩ := compareHeads_variables hc
    simp only [if_true]
    refine (ih hd fun v hv => hes v ?_).of_step fun f => ?_
    · rw [Equation.leaves_cons]
      exact List.mem_append_right _ hv
    · simp only [solves_cons, true_and]
  | case3 σ l r rest v w hc hvw ih =>
    rw [solveAll_cons, hc]
    obtain ⟨rfl, rfl⟩ := compareHeads_variables hc
    simp only [hvw, if_false]
    exact resolved_insert (fun x hx => hes x (by simp [hx])) (fun f => Iff.rfl) (hes v (by simp))
      (hes w (by simp)) (fun hmem => hvw (List.mem_singleton.mp hmem)) hd ih
  | case4 σ l r rest v t hc hocc =>
    rw [solveAll_cons, hc]
    simp only [hocc, if_true]
    rintro f ⟨-, hf⟩
    have hvt := (solves_variable_iff hc f).mp (solves_cons.mp hf).1
    exact TyTerm.ne_bind_of_mem_leaves (TyTerm.occurs_iff.mp hocc)
      (compareHeads_variable_ne hc v) hvt
  | case5 σ l r rest v t hc hocc ih =>
    rw [solveAll_cons, hc]
    simp only [hocc, Bool.false_eq_true, if_false]
    have hvt : v ∉ t.leaves := fun h => hocc (TyTerm.occurs_iff.mpr h)
    obtain ⟨hv, ht⟩ := unbound_of_variable hc hes
    exact resolved_insert (fun x hx => hes x (by simp [hx]))
      (solves_variable_iff hc) hv ht hvt hd ih
  | case6 σ l r rest equations hc ih =>
    rw [solveAll_cons, hc]
    refine (ih hd fun v hv => hes v (leaves_of_parts hc hv)).of_step fun f => ?_
    rw [solves_append, solves_cons, solves_parts_iff hc]
  | case7 σ l r rest kind hc =>
    rw [solveAll_cons, hc]
    rintro f ⟨-, hf⟩
    exact bind_ne_bind_of_clash hc f (solves_cons.mp hf).1

theorem apply_unbound (hd : σ.Dereferenced) (l r : Ty) :
    ∀ w ∈ Equation.leaves [(σ.apply l, σ.apply r)], σ.image w = .var w := by
  intro w hw
  have hw : w ∈ (σ.apply l).leaves ∨ w ∈ (σ.apply r).leaves := by
    simpa [Equation.leaves] using hw
  rcases hw with hw | hw
  · obtain ⟨v, -, hv⟩ := TyTerm.mem_leaves_bind_iff.mp hw
    exact hd.fixed v hv
  · obtain ⟨v, -, hv⟩ := TyTerm.mem_leaves_bind_iff.mp hw
    exact hd.fixed v hv

theorem unify_resolved (hd : σ.Dereferenced) (l r : Ty) :
    Resolved σ.image [(l, r)] ((σ.unify l r).map image) := by
  refine (solveAll_resolved σ _ hd (apply_unbound hd l r)).of_step fun f =>
    and_congr_right fun hf => ?_
  simp only [solves_cons, apply, hf.bind]

theorem unify_ok {σ' : Subst} (hd : σ.Dereferenced) (h : σ.unify l r = .ok σ') :
    σ'.Dereferenced ∧
      ∀ f, Absorbs f σ'.image ↔ Absorbs f σ.image ∧ l.bind f = r.bind f := by
  have hr := unify_resolved hd l r
  rw [h] at hr
  refine ⟨hr.1, fun f => (hr.2 f).trans ?_⟩
  rw [solves_cons, and_iff_left (solves_nil f)]

theorem unify_error (hd : σ.Dereferenced) {e : TypeError} (h : σ.unify l r = .error e)
    {f : TyVar → Ty} (hf : Absorbs f σ.image) : l.bind f ≠ r.bind f := by
  have hr := unify_resolved hd l r
  rw [h] at hr
  exact fun heq => hr f ⟨hf, solves_cons.mpr ⟨heq, solves_nil f⟩⟩

/-! ## Substitutions that the operations build -/

/-- The substitutions that can be built.  A renaming to fresh variables binds the variables of a
type for which the supply is fresh. -/
inductive Built : Subst → Prop
  | empty : Built .empty
  | singleton {v : TyVar} {t : Ty} {σ : Subst} (h : Subst.singleton v t = .ok σ) : Built σ
  | bind {σ σ' : Subst} {v : TyVar} {t : Ty} (hσ : Built σ) (h : σ.bind v t = .ok σ') : Built σ'
  | unify {σ σ' : Subst} {l r : Ty} (hσ : Built σ) (h : σ.unify l r = .ok σ') : Built σ'
  | compose {σ τ ρ : Subst} (hσ : Built σ) (hτ : Built τ) (h : σ.compose τ = .ok ρ) : Built ρ
  | freshRenaming {t : Ty} {s : Supply} (h : ∀ v ∈ t.leaves, v < s.next) :
    Built (Subst.freshRenaming t s).1

theorem bindAll_dereferenced {σ' : Subst} {bindings : List (TyVar × Ty)} (hd : σ.Dereferenced)
    (h : σ.bindAll bindings = .ok σ') : σ'.Dereferenced := by
  induction bindings generalizing σ with
  | nil =>
    rw [bindAll, Except.ok.injEq] at h
    rwa [← h]
  | cons b rest ih =>
    rw [bindAll] at h
    cases hb : σ.bind b.1 b.2 with
    | ok τ =>
      rw [hb] at h
      exact ih (unify_ok hd hb).1 h
    | error e =>
      rw [hb] at h
      exact absurd h (by simp)

private theorem lookup_map_self {α : Type} (f : TyVar → α) (v : TyVar) (vs : List TyVar) :
    (vs.map fun w => (w, f w)).lookup v = if v ∈ vs then some (f v) else none := by
  induction vs with
  | nil => rfl
  | cons w rest ih =>
    rw [List.map_cons, List.lookup_cons, ih]
    by_cases h : v = w
    · simp [h]
    · simp [h, beq_false_of_ne h]

theorem freshRenaming_image (t : Ty) (s : Supply) (v : TyVar) :
    (freshRenaming t s).1.image v =
      .var (if v ∈ t.leaves then s.numbered t.vars v else v) := by
  rw [image, get?, freshRenaming]
  simp only [lookup_map_self (fun w => TyTerm.var (s.numbered t.vars w)), TyTerm.mem_vars]
  split <;> rfl

theorem freshRenaming_dereferenced {s : Supply} (h : ∀ v ∈ t.leaves, v < s.next) :
    (freshRenaming t s).1.Dereferenced := by
  have hfresh : ∀ v, s.numbered t.vars v ∉ t.leaves := by
    intro v hv
    exact absurd (h _ hv) (Nat.not_lt.mpr (Nat.le_add_right s.next _))
  intro v
  rw [freshRenaming_image, TyTerm.bind_var, freshRenaming_image]
  by_cases hv : v ∈ t.leaves
  · rw [if_pos hv, if_neg (hfresh v)]
  · rw [if_neg hv, if_neg hv]

theorem Built.dereferenced (hσ : σ.Built) : σ.Dereferenced := by
  induction hσ with
  | empty => exact empty_dereferenced
  | singleton h => exact (unify_ok empty_dereferenced h).1
  | bind _ h ih => exact (unify_ok ih h).1
  | unify _ h ih => exact (unify_ok ih h).1
  | compose _ _ h ih => exact bindAll_dereferenced ih h
  | freshRenaming h => exact freshRenaming_dereferenced h

/-- A map reads through a substitution exactly if it satisfies every binding. -/
theorem absorbs_image_iff {f : TyVar → Ty} :
    Absorbs f σ.image ↔ ∀ v u, σ.get? v = some u → f v = u.bind f := by
  constructor
  · intro hf v u hu
    rw [← hf v, image, hu, Option.getD_some]
  · intro hf v
    rw [image]
    cases hu : σ.get? v with
    | none => rfl
    | some u => exact (hf v u hu).symm

/-- Unification makes the two types equal, keeps the bindings that were there, and every map that
satisfies these bindings and makes the types equal reads through the result.  `unify` on its own is
the case in which there were no bindings. -/
theorem unify_mostGeneral {σ σ' : Subst} (hσ : σ.Built) {l r : Ty} (h : σ.unify l r = .ok σ') :
    σ'.apply l = σ'.apply r ∧ (∀ t, σ'.apply (σ.apply t) = σ'.apply t) ∧
      (∀ f : TyVar → Ty, (∀ v u, σ.get? v = some u → f v = u.bind f) → l.bind f = r.bind f →
        ∀ t : Ty, (σ'.apply t).bind f = t.bind f) ∧
      BlockGraph.unify l r = empty.unify l r := by
  obtain ⟨hd, habs⟩ := unify_ok hσ.dereferenced h
  obtain ⟨hold, hlr⟩ := (habs σ'.image).mp hd
  refine ⟨hlr, fun t => hold.bind t, fun f hf heq t => ?_, rfl⟩
  exact ((habs f).mpr ⟨absorbs_image_iff.mpr hf, heq⟩).bind t

/-- Here `0` is bound to `List 1` beforehand, and the new equation is `0 -> 2 = 3 -> Bool`. -/
theorem unify_mostGeneral_arrows :
    ∃ σ σ' : Subst, σ.Built ∧
      σ.unify (.fn (.var 0) (.var 2)) (.fn (.var 3) (.lit "Bool" [])) = .ok σ' ∧
      σ'.apply (.var 3) = .lit "List" [.var 1] ∧
      σ'.apply (.fn (.var 0) (.var 2)) = σ'.apply (.fn (.var 3) (.lit "Bool" [])) := by
  have hs : singleton 0 (.lit "List" [.var 1]) = .ok ⟨[(0, .lit "List" [.var 1])]⟩ := by
    simp [singleton, Subst.bind, Subst.unify, solveAll_cons, solveAll, compareHeads, apply, image,
      get?, TyTerm.occurs, insert, Equation.bindAll, empty]
  have hu : Subst.unify ⟨[(0, .lit "List" [.var 1])]⟩ (.fn (.var 0) (.var 2))
      (.fn (.var 3) (.lit "Bool" [])) = .ok ⟨[(2, .lit "Bool" []), (3, .lit "List" [.var 1]),
        (0, .lit "List" [.var 1])]⟩ := by
    simp [Subst.unify, solveAll_cons, solveAll, compareHeads, apply, image, get?, List.lookup_cons,
      TyTerm.occurs, insert, Equation.bindAll, replacing]
  exact ⟨_, _, .singleton hs, hu, rfl, (unify_mostGeneral (.singleton hs) hu).1⟩

end Subst
end BlockGraph
