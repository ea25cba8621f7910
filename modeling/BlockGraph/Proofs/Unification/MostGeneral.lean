import BlockGraph.Proofs.Unification.Replacement
import BlockGraph.Subst

/-!
# Most general solutions of equations

A solution of a list of equations is a map from variables to types that makes
the two sides of every equation equal.  It is most general if it solves the
equations and every other solution reads through it: replacing first by the most
general solution and then by the other one is the same as replacing by the other
one alone.  `MostGeneral z es` says both at once, as an equivalence between
reading through `z` and solving `es`, together with idempotence of `z`.

A solver extends its solution by one binding at a time.  `extend z x u` carries
the binding of `x` to `u` out in the range of `z`, and `absorbs_extend_iff` says
that this adds exactly the equation between `x` and `u`.  Both solvers of this
project are built from such steps, so both proofs rest on this one lemma.
-/

namespace BlockGraph

variable {es : List Equation} {h z : TyVar → Ty} {l r : Ty} {x : TyVar}

/-- Reading through `z` first changes nothing under `h`. -/
def Absorbs (h z : TyVar → Ty) : Prop :=
  ∀ v, (z v).bind h = h v

/-- The map makes both sides of every equation equal. -/
def Solves (h : TyVar → Ty) (es : List Equation) : Prop :=
  ∀ e ∈ es, e.1.bind h = e.2.bind h

/-- An idempotent solution that every solution reads through. -/
structure MostGeneral (z : TyVar → Ty) (es : List Equation) : Prop where
  idempotent : Absorbs z z
  absorbs_iff : ∀ h, Absorbs h z ↔ Solves h es

theorem replacing_self (x : TyVar) (u : Ty) : replacing x u x = u := if_pos rfl

theorem replacing_of_ne {w : TyVar} (u : Ty) (h : w ≠ x) : replacing x u w = .var w := if_neg h

/-! ## Reading through a map -/

namespace Absorbs

variable {z : TyVar → Ty}

theorem bind (hz : Absorbs h z) (t : Ty) : (t.bind z).bind h = t.bind h := by
  rw [TyTerm.bind_bind]
  exact TyTerm.bind_congr fun v _ => hz v

theorem fixed (hz : Absorbs z z) (v : TyVar) {w : TyVar} (hw : w ∈ (z v).leaves) : z w = .var w :=
  TyTerm.bind_eq_self_iff.mp (hz v) w hw

theorem comp {f : TyVar → Ty} (hz : Absorbs h z) : Absorbs (fun v => (h v).bind f) z := by
  intro v
  rw [← TyTerm.bind_bind, hz v]

end Absorbs

theorem absorbs_var (h : TyVar → Ty) : Absorbs h .var := fun _ => rfl

/-! ## Solving lists of equations -/

theorem solves_nil (h : TyVar → Ty) : Solves h [] := by
  intro e he
  exact absurd he List.not_mem_nil

theorem solves_cons : Solves h ((l, r) :: es) ↔ l.bind h = r.bind h ∧ Solves h es :=
  List.forall_mem_cons

theorem solves_append {fs : List Equation} : Solves h (es ++ fs) ↔ Solves h es ∧ Solves h fs :=
  List.forall_mem_append

/-- Equations through which a solution has already been carried out have the same solutions, among
those that read through it. -/
theorem solves_bindAll_iff (hz : Absorbs h z) : Solves h (Equation.bindAll z es) ↔ Solves h es := by
  simp only [Solves, Equation.bindAll, List.forall_mem_map, hz.bind]

theorem mostGeneral_nil : MostGeneral .var [] :=
  ⟨absorbs_var _, fun h => ⟨fun _ => solves_nil h, fun _ => absorbs_var h⟩⟩

namespace MostGeneral

variable {z : TyVar → Ty} {es : List Equation}

theorem solves (hz : MostGeneral z es) : Solves z es :=
  (hz.absorbs_iff z).mp hz.idempotent

theorem absorbs (hz : MostGeneral z es) (hs : Solves h es) : Absorbs h z :=
  (hz.absorbs_iff h).mpr hs

/-- Only variables that an equation connects come together.  Here every equation lies on one side of
a division of the variables, so a type from one side is solved within that side.

The proof closes the other side: a map that solves the equations on the one side as `z` does, and
makes every type of the other side variable free, is a solution too, so `z` must read through it. -/
theorem leaves_of_divided (hz : MostGeneral z es) {side : TyVar → Prop}
    (hes : ∀ e ∈ es, (∀ v ∈ e.1.leaves ++ e.2.leaves, side v) ∨
      ∀ v ∈ e.1.leaves ++ e.2.leaves, ¬ side v)
    {t : Ty} (ht : ∀ v ∈ t.leaves, side v) {w : TyVar} (hw : w ∈ (t.bind z).leaves) : side w := by
  classical
  let closed : Ty := .lit "" []
  let h : TyVar → Ty := fun v => if side v then z v else (z v).bind fun _ => closed
  have hside : ∀ u : Ty, (∀ v ∈ u.leaves, side v) → u.bind h = u.bind z := fun u hu =>
    TyTerm.bind_congr fun v hv => if_pos (hu v hv)
  have hother : ∀ u : Ty, (∀ v ∈ u.leaves, ¬ side v) →
      u.bind h = (u.bind z).bind fun _ => closed := by
    intro u hu
    rw [TyTerm.bind_bind]
    exact TyTerm.bind_congr fun v hv => if_neg (hu v hv)
  have hsolves : Solves h es := by
    intro e he
    have heq := hz.solves e he
    rcases hes e he with hv | hv
    · rw [hside _ fun v hl => hv v (List.mem_append_left _ hl),
        hside _ fun v hr => hv v (List.mem_append_right _ hr), heq]
    · rw [hother _ fun v hl => hv v (List.mem_append_left _ hl),
        hother _ fun v hr => hv v (List.mem_append_right _ hr), heq]
  have hfix : (t.bind z).bind h = t.bind z := by
    rw [(hz.absorbs hsolves).bind, hside t ht]
  have hw' : h w = .var w := TyTerm.bind_eq_self_iff.mp hfix w hw
  refine Classical.byContradiction fun hn => ?_
  have hclosed : h w = (z w).bind fun _ => closed := if_neg hn
  have hmem : w ∈ ((z w).bind fun _ => closed).leaves := by
    rw [← hclosed, hw', TyTerm.leaves_var]
    exact List.mem_singleton_self w
  obtain ⟨v, _, hv⟩ := TyTerm.mem_leaves_bind_iff.mp hmem
  simp [closed] at hv

end MostGeneral

/-! ## One binding more -/

/-- Binds `x` to `u`, also in the range of `z`. -/
def extend (z : TyVar → Ty) (x : TyVar) (u : Ty) : TyVar → Ty :=
  fun v => (z v).bind (replacing x u)

theorem absorbs_replacing_iff {u : Ty} : Absorbs h (replacing x u) ↔ h x = u.bind h := by
  constructor
  · intro hr
    rw [← hr x, replacing_self]
  · intro hx v
    by_cases hv : v = x
    · rw [hv, replacing_self, hx]
    · rw [replacing_of_ne u hv, TyTerm.bind_var]

section Extend

variable {z : TyVar → Ty} {x : TyVar} {u : Ty}

/-- To read through the extended map is to read through the map and to solve the added equation. -/
theorem absorbs_extend_iff (hx : z x = .var x) :
    Absorbs h (extend z x u) ↔ Absorbs h z ∧ h x = u.bind h := by
  constructor
  · intro he
    have hxu : h x = u.bind h := by
      rw [← he x, extend, hx, TyTerm.bind_var, replacing_self]
    refine ⟨fun v => ?_, hxu⟩
    rw [← he v, extend, (absorbs_replacing_iff.mpr hxu).bind]
  · rintro ⟨hz, hxu⟩ v
    rw [extend, (absorbs_replacing_iff.mpr hxu).bind, hz v]

theorem bind_replacing_of_not_mem {t : Ty} (hx : x ∉ t.leaves) : t.bind (replacing x u) = t :=
  TyTerm.bind_eq_self_iff.mpr fun _ hv => replacing_of_ne u fun h => hx (h ▸ hv)

theorem extend_idempotent (hz : Absorbs z z) (hx : z x = .var x) (hu : u.bind z = u)
    (hxu : x ∉ u.leaves) : Absorbs (extend z x u) (extend z x u) := by
  refine (absorbs_extend_iff hx).mpr ⟨hz.comp, ?_⟩
  show (z x).bind (replacing x u) = u.bind fun v => (z v).bind (replacing x u)
  rw [hx, TyTerm.bind_var, replacing_self, ← TyTerm.bind_bind, hu, bind_replacing_of_not_mem hxu]

/-- What the map leaves alone in equations is left alone by the extended map, once the new binding
has been carried out in them. -/
theorem extend_eq_var (hes : ∀ w ∈ Equation.leaves es, z w = .var w) (hu : u.bind z = u)
    (hxu : x ∉ u.leaves) :
    ∀ w ∈ Equation.leaves (Equation.bindAll (replacing x u) es), extend z x u w = .var w := by
  intro w hw
  obtain ⟨v, hv, hw⟩ := Equation.mem_leaves_bindAll hw
  have hwx : z w = .var w ∧ w ≠ x := by
    by_cases hvx : v = x
    · rw [hvx, replacing_self] at hw
      exact ⟨TyTerm.bind_eq_self_iff.mp hu w hw, fun h => hxu (h ▸ hw)⟩
    · rw [replacing_of_ne u hvx, TyTerm.leaves_var, List.mem_singleton] at hw
      rw [hw]
      exact ⟨hes v hv, hvx⟩
  rw [extend, hwx.1, TyTerm.bind_var, replacing_of_ne u hwx.2]

end Extend

/-! ## The outcome of solving -/

/-- What solving equations on top of the solution `z` has to give: a solution that adds just these
equations, or a failure if no solution adds them. -/
def Resolved (z : TyVar → Ty) (es : List Equation) : Except TypeError (TyVar → Ty) → Prop
  | .ok z' => Absorbs z' z' ∧ ∀ h, Absorbs h z' ↔ Absorbs h z ∧ Solves h es
  | .error _ => ∀ h, ¬ (Absorbs h z ∧ Solves h es)

/-- A step of solving keeps the maps that are solutions, and so it keeps the outcome. -/
theorem Resolved.of_step {z' : TyVar → Ty} {es' : List Equation}
    {outcome : Except TypeError (TyVar → Ty)} (h : Resolved z' es' outcome)
    (hstep : ∀ f, Absorbs f z' ∧ Solves f es' ↔ Absorbs f z ∧ Solves f es) :
    Resolved z es outcome := by
  cases outcome with
  | ok w => exact ⟨h.1, fun f => (h.2 f).trans (hstep f)⟩
  | error e => exact fun f hf => h f ((hstep f).mpr hf)

/-- The step that binds `x` to `u`, where the first equation is the one between the two. -/
theorem Resolved.of_extend {u : Ty} {rest : List Equation} {outcome : Except TypeError (TyVar → Ty)}
    (hx : z x = .var x) (hlr : ∀ f : TyVar → Ty, l.bind f = r.bind f ↔ f x = u.bind f)
    (h : Resolved (extend z x u) (Equation.bindAll (replacing x u) rest) outcome) :
    Resolved z ((l, r) :: rest) outcome := by
  refine h.of_step fun f => ?_
  rw [absorbs_extend_iff hx, solves_cons, hlr f]
  constructor
  · rintro ⟨⟨hz, hxu⟩, hrest⟩
    exact ⟨hz, hxu, (solves_bindAll_iff (absorbs_replacing_iff.mpr hxu)).mp hrest⟩
  · rintro ⟨hz, hxu, hrest⟩
    exact ⟨⟨hz, hxu⟩, (solves_bindAll_iff (absorbs_replacing_iff.mpr hxu)).mpr hrest⟩

/-! ## What the heads of two types say about their solutions -/

private theorem solves_zip_iff {as bs : List Ty} (hl : as.length = bs.length) :
    Solves h (as.zip bs) ↔ as.map (TyTerm.bind h) = bs.map (TyTerm.bind h) := by
  induction as generalizing bs with
  | nil =>
    cases bs with
    | nil => simp [solves_nil]
    | cons b bs => simp at hl
  | cons a as ih =>
    cases bs with
    | nil => simp at hl
    | cons b bs =>
      rw [List.zip_cons_cons, solves_cons, ih (Nat.succ.inj hl), List.map_cons, List.map_cons,
        List.cons.injEq]

theorem solves_parts_iff (hc : compareHeads l r = .parts es) (h : TyVar → Ty) :
    Solves h es ↔ l.bind h = r.bind h := by
  revert hc
  fun_cases compareHeads l r <;> try simp
  case case8 name args name' args' hname hlen =>
    rintro rfl
    rw [solves_zip_iff (by simpa using hlen)]
    have hname : name = name' := by simpa using hname
    simp [hname]
  case case9 domain codomain domain' codomain' =>
    rintro rfl
    simp [solves_cons, solves_nil]

theorem bind_ne_bind_of_clash {kind : Mismatch} (hc : compareHeads l r = .clash kind)
    (h : TyVar → Ty) : l.bind h ≠ r.bind h := by
  revert hc
  fun_cases compareHeads l r <;> try simp
  case case6 name args name' args' hname =>
    intro _ hn
    exact absurd hn hname
  case case7 name args name' args' hname hlen =>
    intro _ hn ha
    exact hlen (by simpa using congrArg List.length ha)

theorem compareHeads_variable_ne {v : TyVar} {t : Ty} (hc : compareHeads l r = .variable v t)
    (w : TyVar) : t ≠ .var w := by
  revert hc
  fun_cases compareHeads l r <;> simp_all <;> rintro _ rfl <;> simp

/-- The equation between a variable and a type, whichever side the variable stands on. -/
theorem solves_variable_iff {v : TyVar} {t : Ty} (hc : compareHeads l r = .variable v t)
    (h : TyVar → Ty) : l.bind h = r.bind h ↔ h v = t.bind h := by
  rcases compareHeads_variable hc with ⟨rfl, rfl⟩ | ⟨rfl, rfl⟩
  · rw [TyTerm.bind_var]
  · rw [TyTerm.bind_var, eq_comm]

end BlockGraph
