import BlockGraph.Proofs.Unification.Solver
import BlockGraph.Proofs.Unification.Substitution
import Mathlib.Data.List.Forall2
import Mathlib.Logic.Equiv.Basic

/-!
# The two solvers agree

A substitution and a solver by classes that have met the same equations say the
same up to a renaming of the variables that are left: a class has one variable
that stands for it, but the two may choose different ones.  `Agree π σ s` says
that the renaming is `π`, for all variables at once.

Equations that both are working on correspond in the same way, so their heads
compare alike, both fail for the same reason or both bind a variable.  Where the
solver keeps the representative that the substitution has bound, the renaming is
followed by the exchange of the two.
-/

namespace BlockGraph

variable {es fs : List Equation} {s : Solver} {π : Equiv.Perm TyVar}

/-- Both errors say the same about how an equation fails, whatever types they show. -/
inductive TypeError.SameKind : TypeError → TypeError → Prop
  | occurs (v w : TyVar) (t u : Ty) : SameKind (.occurs v t) (.occurs w u)
  | mismatch (kind : Mismatch) (l r l' r' : Ty) :
    SameKind (.mismatch kind l r) (.mismatch kind l' r')

/-- Meets constraints one after another and lists for each what it failed with, if it did.  A
constraint that fails changes nothing. -/
def feed {S : Type} (meet : S → Ty → Ty → Except TypeError S) :
    S → List Equation → S × List (Option TypeError)
  | s, [] => (s, [])
  | s, (l, r) :: rest =>
    match meet s l r with
    | .ok s' => ((feed meet s' rest).1, none :: (feed meet s' rest).2)
    | .error e => ((feed meet s rest).1, some e :: (feed meet s rest).2)

/-! ## Renaming and comparing -/

/-- The comparison after a renaming of the variables. -/
def Comparison.map (f : TyVar → TyVar) : Comparison → Comparison
  | .variables v w => .variables (f v) (f w)
  | .variable v t => .variable (f v) (t.map f)
  | .parts es => .parts (Equation.bindAll (fun v => .var (f v)) es)
  | .clash kind => .clash kind

theorem compareHeads_map (f : TyVar → TyVar) (l r : Ty) :
    compareHeads (l.map f) (r.map f) = (compareHeads l r).map f := by
  fun_cases compareHeads l r
  case case6 name args name' args' hname =>
    simp [compareHeads, Comparison.map, hname]
  case case7 name args name' args' hname hlen =>
    have hname : name = name' := by simpa using hname
    simp [compareHeads, Comparison.map, hname, hlen]
  case case8 name args name' args' hname hlen =>
    have hname : name = name' := by simpa using hname
    have hlen : args.length = args'.length := by simpa using hlen
    simp only [TyTerm.map_lit, compareHeads, hname, ne_eq, not_true_eq_false, if_false,
      List.length_map, hlen, Comparison.map, Equation.bindAll]
    rw [List.zip_map]
    rfl
  all_goals simp [compareHeads, Comparison.map, Equation.bindAll, TyTerm.map]

namespace Comparison

variable {f : TyVar → TyVar} {c : Comparison}

theorem of_map_variables {x y : TyVar} (h : c.map f = .variables x y) :
    ∃ v w, c = .variables v w ∧ f v = x ∧ f w = y := by
  cases c with
  | «variables» v w => exact ⟨v, w, rfl, by simpa [map] using h⟩
  | _ => simp [map] at h

theorem of_map_variable {x : TyVar} {u : Ty} (h : c.map f = .variable x u) :
    ∃ v t, c = .variable v t ∧ f v = x ∧ t.map f = u := by
  cases c with
  | «variable» v t => exact ⟨v, t, rfl, by simpa [map] using h⟩
  | _ => simp [map] at h

theorem of_map_parts {fs : List Equation} (h : c.map f = .parts fs) :
    ∃ es, c = .parts es ∧ Equation.bindAll (fun v => .var (f v)) es = fs := by
  cases c with
  | parts es => exact ⟨es, rfl, by simpa [map] using h⟩
  | _ => simp [map] at h

theorem of_map_clash {kind : Mismatch} (h : c.map f = .clash kind) : c = .clash kind := by
  cases c with
  | clash kind' => simpa [map] using h
  | _ => simp [map] at h

end Comparison

/-- An injective renaming carries a replacement over to the renamed variables. -/
theorem bind_replacing_map {π : TyVar → TyVar} (hπ : ∀ v w, π v = π w → v = w) (v : TyVar)
    (u t : Ty) : (t.map π).bind (replacing (π v) (u.map π)) = (t.bind (replacing v u)).map π := by
  rw [TyTerm.bind_map, TyTerm.map_bind]
  refine TyTerm.bind_congr fun w _ => ?_
  show replacing (π v) (u.map π) (π w) = (replacing v u w).map π
  by_cases hw : w = v
  · rw [hw, replacing_self, replacing_self]
  · rw [replacing_of_ne _ hw, replacing_of_ne _ fun h => hw (hπ w v h), TyTerm.map_var]

/-- Binding the one of two variables to the other, or the other way round, differs by the exchange
of the two. -/
theorem bind_replacing_swap (π : Equiv.Perm TyVar) (v w : TyVar) (t : Ty) :
    (t.map π).bind (replacing (π w) (.var (π v))) =
      (t.bind (replacing v (.var w))).map (π.trans (Equiv.swap (π v) (π w))) := by
  rw [TyTerm.bind_map, TyTerm.map_bind]
  refine TyTerm.bind_congr fun y _ => ?_
  show replacing (π w) (.var (π v)) (π y) = (replacing v (.var w) y).map _
  by_cases hv : y = v
  · rw [hv, replacing_self, TyTerm.map_var, Equiv.trans_apply, Equiv.swap_apply_right]
    by_cases hvw : v = w
    · rw [hvw, replacing_self]
    · rw [replacing_of_ne _ fun h => hvw (π.injective h)]
  · rw [replacing_of_ne _ hv, TyTerm.map_var, Equiv.trans_apply]
    by_cases hw : y = w
    · rw [hw, replacing_self, Equiv.swap_apply_right]
    · rw [replacing_of_ne _ fun h => hw (π.injective h),
        Equiv.swap_apply_of_ne_of_ne (fun h => hv (π.injective h)) fun h => hw (π.injective h)]

/-! ## The correspondence -/

/-- Substitution and solver say the same about every variable, up to the renaming. -/
structure Agree (π : Equiv.Perm TyVar) (σ : Subst) (s : Solver) : Prop where
  dereferenced : σ.Dereferenced
  layered : s.Layered
  image : ∀ v, s.image v = (σ.image v).map π

/-- Equations on both sides correspond, representatives standing for classes. -/
def Corresponds (π : Equiv.Perm TyVar) (s : Solver) (fs es : List Equation) : Prop :=
  Equation.bindAll (fun v => .var (s.rep v)) es = Equation.bindAll (fun v => .var (π v)) fs

/-- Both succeed and agree, or both fail for the same reason. -/
def SameOutcome : Except TypeError Subst → Except TypeError Solver → Prop
  | .ok σ, .ok s => ∃ π, Agree π σ s
  | .error e, .error e' => e'.SameKind e
  | _, _ => False

namespace Agree

variable {π : Equiv.Perm TyVar} {σ : Subst} {s : Solver}

theorem zonk (h : Agree π σ s) (t : Ty) : s.zonk t = (σ.apply t).map π := by
  rw [Solver.zonk_eq_bind h.layered, Subst.apply, TyTerm.map_bind]
  exact TyTerm.bind_congr fun v _ => h.image v

end Agree

theorem corresponds_cons {l r l' r' : Ty} :
    Corresponds π s ((l, r) :: fs) ((l', r') :: es) ↔
      (l'.map s.rep = l.map π ∧ r'.map s.rep = r.map π) ∧ Corresponds π s fs es := by
  simp only [Corresponds, Equation.bindAll, List.map_cons, List.cons.injEq, Prod.mk.injEq,
    TyTerm.map]

theorem corresponds_append {fs' es' : List Equation} (h : Corresponds π s fs es)
    (h' : Corresponds π s fs' es') : Corresponds π s (fs ++ fs') (es ++ es') := by
  simp only [Corresponds, Equation.bindAll, List.map_append] at h h' ⊢
  rw [h, h']

/-- What both sides do to every type of the equations, if it keeps corresponding types so. -/
theorem Corresponds.of_step {π' : Equiv.Perm TyVar} {s' : Solver} {g k : Ty → Ty}
    (hg : ∀ t t' : Ty, t'.map s.rep = t.map π → (k t').map s'.rep = (g t).map π')
    (h : Corresponds π s fs es) :
    Corresponds π' s' (fs.map fun e => (g e.1, g e.2)) (es.map fun e => (k e.1, k e.2)) := by
  induction fs generalizing es with
  | nil =>
    cases es with
    | nil => rfl
    | cons e es => simp [Corresponds, Equation.bindAll] at h
  | cons f fs ih =>
    cases es with
    | nil => simp [Corresponds, Equation.bindAll] at h
    | cons e es =>
      obtain ⟨⟨hl, hr⟩, hrest⟩ := corresponds_cons.mp h
      exact corresponds_cons.mpr ⟨⟨hg _ _ hl, hg _ _ hr⟩, ih hrest⟩

/-! ## One variable bound -/

section Step

variable {π : Equiv.Perm TyVar} {σ : Subst} {s : Solver} {v w : TyVar}

private theorem insert_dereferenced (h : Agree π σ s) {u : Ty} (hv : σ.image v = .var v)
    (hu : u.bind σ.image = u) (hvu : v ∉ u.leaves) : (σ.insert v u).Dereferenced := by
  rw [Subst.Dereferenced, Subst.image_insert hv]
  exact extend_idempotent h.dereferenced hv hu hvu

/-- Two classes are merged where the substitution binds the one variable to the other.  The renaming
depends on which representative is kept. -/
theorem Agree.merge (h : Agree π σ s) {v' w' : TyVar} (hv : σ.image v = .var v)
    (hw : σ.image w = .var w) (hvw : v ≠ w) (hv' : s.value? v' = none) (hw' : s.value? w' = none)
    (hrv : s.rep v' = π v) (hrw : s.rep w' = π w) :
    ∃ π', Agree π' (σ.insert v (.var w)) (s.merge v' w') ∧
      ∀ t t' : Ty, t'.map s.rep = t.map π →
        t'.map (s.merge v' w').rep = (t.bind (replacing v (.var w))).map π' := by
  have hne : s.rep v' ≠ s.rep w' := by
    rw [hrv, hrw]
    exact fun he => hvw (π.injective he)
  have hderef : (σ.insert v (.var w)).Dereferenced :=
    insert_dereferenced h hv hw fun hmem => hvw (List.mem_singleton.mp hmem)
  have hlay := Solver.merge_layered h.layered hv' hw'
  obtain ⟨a, b, hab, hrep, himage⟩ := Solver.image_merge hv' hw' hne
  have hterm : ∀ t' : Ty, t'.map (s.merge v' w').rep =
      (t'.map s.rep).bind (replacing a (.var b)) := by
    intro t'
    rw [TyTerm.bind_map]
    refine TyTerm.bind_congr fun y _ => ?_
    show TyTerm.var _ = replacing a (.var b) (s.rep y)
    rw [hrep y, replacing]
    split <;> rfl
  -- both the image and the equations change by one replacement, which the renaming has to follow
  suffices hstep : ∃ π' : Equiv.Perm TyVar, ∀ t : Ty, (t.map π).bind (replacing a (.var b)) =
      (t.bind (replacing v (.var w))).map π' by
    obtain ⟨π', hπ'⟩ := hstep
    refine ⟨π', ⟨hderef, hlay, fun x => ?_⟩, fun t t' ht => ?_⟩
    · rw [himage, Subst.image_insert hv, extend, extend, h.image, hπ']
    · rw [hterm, ht, hπ']
  rcases hab with ⟨ha, hb⟩ | ⟨ha, hb⟩
  · rw [ha, hb, hrv, hrw]
    exact ⟨π, fun t => bind_replacing_map (fun _ _ he => π.injective he) v (.var w) t⟩
  · rw [ha, hb, hrv, hrw]
    exact ⟨_, fun t => bind_replacing_swap π v w t⟩

theorem Agree.assign (h : Agree π σ s) {v' : TyVar} {t t' : Ty} (hv : σ.image v = .var v)
    (ht : t.bind σ.image = t) (hvt : v ∉ t.leaves) (hv' : s.value? v' = none)
    (ht' : ∀ w ∈ t'.leaves, s.value? w = none) (hocc : ∀ w ∈ t'.leaves, s.rep w ≠ s.rep v')
    (hrv : s.rep v' = π v) (hrt : t'.map s.rep = t.map π) :
    Agree π (σ.insert v t) (s.assign v' (t'.map s.rep)) ∧
      ∀ u u' : Ty, u'.map s.rep = u.map π →
        (u'.bind (s.replacingClass v' (t'.map s.rep))).map (s.assign v' (t'.map s.rep)).rep =
          (u.bind (replacing v t)).map π := by
  have hinj : ∀ x y, π x = π y → x = y := fun _ _ he => π.injective he
  refine ⟨⟨insert_dereferenced h hv ht hvt, Solver.assign_layered h.layered ht' hocc, fun x => ?_⟩,
    fun u u' hu => ?_⟩
  · rw [Solver.image_assign h.layered hv' ht' hocc, Subst.image_insert hv, extend, extend, h.image,
      hrv, hrt, bind_replacing_map hinj]
  · have hrep : (s.assign v' (t'.map s.rep)).rep = s.rep :=
      funext fun x => Solver.rep_assign s v' _ x
    rw [hrep, ← bind_replacing_map hinj, ← hu, ← hrt, ← hrv, TyTerm.map_bind, TyTerm.bind_map]
    exact TyTerm.bind_congr fun y _ => s.map_rep_replacingClass v' t' y

end Step

/-! ## Solving side by side -/

private theorem exists_cons_of_corresponds {l r : Ty} (h : Corresponds π s ((l, r) :: fs) es) :
    ∃ l' r' es', es = (l', r') :: es' ∧ Corresponds π s fs es' ∧
      (compareHeads l' r').map s.rep = (compareHeads l r).map π := by
  cases es with
  | nil => simp [Corresponds, Equation.bindAll] at h
  | cons e es' =>
    obtain ⟨⟨hl, hr⟩, hrest⟩ := corresponds_cons.mp h
    refine ⟨e.1, e.2, es', rfl, hrest, ?_⟩
    rw [← compareHeads_map, ← compareHeads_map, hl, hr]

private theorem occurs_iff_any {v v' : TyVar} {t t' : Ty} (hv : s.rep v' = π v)
    (ht : t'.map s.rep = t.map π) :
    t.occurs v = true ↔ (t'.leaves.any fun w => s.rep w = s.rep v') = true := by
  rw [TyTerm.occurs_iff, List.any_eq_true]
  simp only [decide_eq_true_eq]
  rw [← TyTerm.mem_leaves_map_iff, ht, hv, TyTerm.mem_leaves_map_iff]
  constructor
  · exact fun hmem => ⟨v, hmem, rfl⟩
  · rintro ⟨w, hw, he⟩
    rwa [← π.injective he]

theorem solveAll_sameOutcome (σ : Subst) (fs : List Equation) (h : Agree π σ s)
    (hc : Corresponds π s fs es) (hfs : ∀ w ∈ Equation.leaves fs, σ.image w = .var w)
    (hes : ∀ w ∈ Equation.leaves es, s.value? w = none) :
    SameOutcome (σ.solveAll fs) (s.solveAll es) := by
  induction σ, fs using Subst.solveAll.induct generalizing π s es with
  | case1 σ =>
    cases es with
    | nil =>
      rw [Subst.solveAll, Solver.solveAll]
      exact ⟨π, h⟩
    | cons e es => simp [Corresponds, Equation.bindAll] at hc
  | case2 σ l r rest w hcmp ih =>
    obtain ⟨l', r', es, rfl, hrest, hmap⟩ := exists_cons_of_corresponds hc
    rw [hcmp] at hmap
    obtain ⟨v', w', hcmp', hv, hw⟩ := Comparison.of_map_variables hmap
    obtain ⟨rfl, rfl⟩ := compareHeads_variables hcmp'
    have hv' : s.value? v' = none := hes v' (by simp)
    have hw' : s.value? w' = none := hes w' (by simp)
    have hrep : s.rep v' = s.rep w' := by rw [hv, hw]
    rw [Subst.solveAll_cons, Solver.solveAll_cons, hcmp, hcmp']
    simp only [if_true]
    have hagree : Agree π σ (s.merge v' w') := by
      refine ⟨h.dereferenced, Solver.merge_layered h.layered hv' hw', fun x => ?_⟩
      rw [Solver.image_merge_of_rep_eq hv' hw' hrep, h.image]
    refine ih hagree ?_ (fun x hx => hfs x (by simp [hx])) fun x hx => ?_
    · rwa [Corresponds, Solver.rep_merge_of_rep_eq hrep]
    · rw [Solver.value?_merge hv' hw', hes x (by simp [hx])]
  | case3 σ l r rest v w hcmp hvw ih =>
    obtain ⟨l', r', es, rfl, hrest, hmap⟩ := exists_cons_of_corresponds hc
    rw [hcmp] at hmap
    obtain ⟨v', w', hcmp', hv, hw⟩ := Comparison.of_map_variables hmap
    obtain ⟨rfl, rfl⟩ := compareHeads_variables hcmp
    obtain ⟨rfl, rfl⟩ := compareHeads_variables hcmp'
    have hv' : s.value? v' = none := hes v' (by simp)
    have hw' : s.value? w' = none := hes w' (by simp)
    have hvσ : σ.image v = .var v := hfs v (by simp)
    have hwσ : σ.image w = .var w := hfs w (by simp)
    rw [Subst.solveAll_cons, Solver.solveAll_cons, hcmp, hcmp']
    simp only [hvw, if_false]
    obtain ⟨π', hagree, hstep⟩ := h.merge hvσ hwσ hvw hv' hw' hv hw
    refine ih hagree ?_ ?_ fun x hx => ?_
    · have := hrest.of_step (k := id) hstep
      simpa [Equation.bindAll] using this
    · rw [Subst.image_insert hvσ]
      exact extend_eq_var (fun x hx => hfs x (by simp [hx])) hwσ fun hmem =>
        hvw (List.mem_singleton.mp hmem)
    · rw [Solver.value?_merge hv' hw', hes x (by simp [hx])]
  | case4 σ l r rest v t hcmp hocc =>
    obtain ⟨l', r', es, rfl, hrest, hmap⟩ := exists_cons_of_corresponds hc
    rw [hcmp] at hmap
    obtain ⟨v', t', hcmp', hv, ht⟩ := Comparison.of_map_variable hmap
    have hocc' : (t'.leaves.any fun w => s.rep w = s.rep v') = true :=
      (occurs_iff_any hv ht).mp hocc
    rw [Subst.solveAll_cons, Solver.solveAll_cons, hcmp, hcmp']
    simp only [hocc, hocc', if_true]
    exact .occurs ..
  | case5 σ l r rest v t hcmp hocc ih =>
    obtain ⟨l', r', es, rfl, hrest, hmap⟩ := exists_cons_of_corresponds hc
    rw [hcmp] at hmap
    obtain ⟨v', t', hcmp', hv, ht⟩ := Comparison.of_map_variable hmap
    have hocc' : ¬ (t'.leaves.any fun w => s.rep w = s.rep v') = true := fun hany =>
      hocc ((occurs_iff_any hv ht).mpr hany)
    rw [Subst.solveAll_cons, Solver.solveAll_cons, hcmp, hcmp']
    simp only [hocc, hocc', Bool.false_eq_true, if_false]
    have hocc' : ∀ w ∈ t'.leaves, s.rep w ≠ s.rep v' := by simpa using hocc'
    have hvt : v ∉ t.leaves := fun hmem => hocc (TyTerm.occurs_iff.mpr hmem)
    obtain ⟨hv', ht'⟩ := Solver.unvalued_of_variable hcmp' hes
    obtain ⟨hvσ, htσ⟩ := Subst.unbound_of_variable hcmp hfs
    obtain ⟨hagree, hstep⟩ := h.assign hvσ htσ hvt hv' ht' hocc' hv ht
    refine ih hagree (hrest.of_step hstep) ?_ fun x hx => ?_
    · rw [Subst.image_insert hvσ]
      exact extend_eq_var (fun x hx => hfs x (by simp [hx])) htσ hvt
    · exact Solver.value?_assign_bindAll ht' hocc' (fun y hy => hes y (by simp [hy])) hx
  | case6 σ l r rest equations hcmp ih =>
    obtain ⟨l', r', es, rfl, hrest, hmap⟩ := exists_cons_of_corresponds hc
    rw [hcmp] at hmap
    obtain ⟨equations', hcmp', hparts⟩ := Comparison.of_map_parts hmap
    rw [Subst.solveAll_cons, Solver.solveAll_cons, hcmp, hcmp']
    exact ih h (corresponds_append hparts hrest) (fun x hx => hfs x (leaves_of_parts hcmp hx))
      fun x hx => hes x (leaves_of_parts hcmp' hx)
  | case7 σ l r rest kind hcmp =>
    obtain ⟨l', r', es, rfl, hrest, hmap⟩ := exists_cons_of_corresponds hc
    rw [hcmp] at hmap
    rw [Subst.solveAll_cons, Solver.solveAll_cons, hcmp, Comparison.of_map_clash hmap]
    exact .mismatch ..

theorem Agree.sameOutcome {σ : Subst} (h : Agree π σ s) (l r : Ty) :
    SameOutcome (σ.unify l r) (s.constrain l r) := by
  refine solveAll_sameOutcome σ _ h ?_ (Subst.apply_unbound h.dereferenced l r)
    (Solver.expand_unvalued h.layered l r)
  exact corresponds_cons.mpr ⟨⟨h.zonk l, h.zonk r⟩, rfl⟩

theorem agree_empty : Agree (Equiv.refl TyVar) .empty .empty where
  dereferenced := Subst.empty_dereferenced
  layered := Solver.empty_layered
  image _ := rfl

/-- Whatever constraints are fed to both, the same ones fail for the same reasons, and the results
agree. -/
theorem feed_agree (es : List Equation) {σ : Subst} (h : Agree π σ s) :
    List.Forall₂ (Option.Rel TypeError.SameKind) (feed Solver.constrain s es).2
        (feed Subst.unify σ es).2 ∧
      ∃ π', Agree π' (feed Subst.unify σ es).1 (feed Solver.constrain s es).1 := by
  induction es generalizing π σ s with
  | nil => exact ⟨.nil, π, h⟩
  | cons e es ih =>
    have hout := h.sameOutcome e.1 e.2
    rw [feed, feed]
    cases hσ : σ.unify e.1 e.2 with
    | ok σ' =>
      cases hs : s.constrain e.1 e.2 with
      | ok s' =>
        rw [hσ, hs] at hout
        obtain ⟨π', h'⟩ := hout
        obtain ⟨hfail, hagree⟩ := ih h'
        exact ⟨.cons .none hfail, hagree⟩
      | error e' =>
        rw [hσ, hs] at hout
        exact hout.elim
    | error e' =>
      cases hs : s.constrain e.1 e.2 with
      | ok s' =>
        rw [hσ, hs] at hout
        exact hout.elim
      | error e'' =>
        rw [hσ, hs] at hout
        obtain ⟨hfail, hagree⟩ := ih h
        exact ⟨.cons (.some hout) hfail, hagree⟩

/-- Fed with the same constraints, the solver by classes and the substitution fail on the same ones
for the same reasons, and after every part of them that comes first, one renaming carries all that
the substitution says over to what the solver says. -/
theorem solvers_agree (es : List Equation) :
    List.Forall₂ (Option.Rel TypeError.SameKind) (feed Solver.constrain .empty es).2
        (feed Subst.unify .empty es).2 ∧
      ∀ first, first <+: es → ∃ π : Equiv.Perm TyVar, ∀ ts : List Ty,
        ts.map (feed Solver.constrain .empty first).1.zonk =
          ts.map fun t => ((feed Subst.unify .empty first).1.apply t).map π := by
  refine ⟨(feed_agree es agree_empty).1, fun first _ => ?_⟩
  obtain ⟨-, π, h⟩ := feed_agree first agree_empty
  exact ⟨π, fun ts => List.map_congr_left fun t _ => h.zonk t⟩

end BlockGraph
