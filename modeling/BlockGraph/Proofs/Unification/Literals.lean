import BlockGraph.Proofs.Unification.Families
import BlockGraph.Proofs.Unification.Substitution

/-!
# Names of literals and most general solutions

Giving a literal another name commutes with replacing variables.  The new name may
be one that other literals have already, and then equations become solvable that
were not.  Equations that have a solution are solved by the same steps under the new
name, since literals that were equal still are: a most general solution stays one
(`MostGeneral.renameLiteral`), and so does a principal family that comes from equations
(`Generates.renameLiteral`).
-/

namespace BlockGraph

variable {es : List Equation}

namespace TyTerm

variable {ν μ : Type} (old new : String)

@[simp]
theorem renameLiteral_var (v : ν) : (var v).renameLiteral old new = var v := rfl

@[simp]
theorem renameLiteral_lit (name : String) (args : List (TyTerm ν)) :
    (lit name args).renameLiteral old new =
      lit (if name = old then new else name) (args.map (renameLiteral old new)) := by
  rw [renameLiteral]
  congr 1
  induction args with
  | nil => rfl
  | cons t rest ih => rw [renameLiteralAll, List.map_cons, ih]

@[simp]
theorem renameLiteral_fn (domain codomain : TyTerm ν) :
    (fn domain codomain).renameLiteral old new =
      fn (domain.renameLiteral old new) (codomain.renameLiteral old new) := rfl

theorem renameLiteral_bind (f : ν → TyTerm μ) (t : TyTerm ν) :
    (t.bind f).renameLiteral old new =
      (t.renameLiteral old new).bind fun v => (f v).renameLiteral old new := by
  induction t with
  | var v => rfl
  | lit name args ih =>
    simp only [bind_lit, renameLiteral_lit, List.map_map]
    congr 1
    exact List.map_congr_left ih
  | fn domain codomain ihd ihc =>
    rw [bind_fn, renameLiteral_fn, renameLiteral_fn, bind_fn, ihd, ihc]

theorem renameLiteral_map (f : ν → μ) (t : TyTerm ν) :
    (t.map f).renameLiteral old new = (t.renameLiteral old new).map f :=
  renameLiteral_bind old new _ t

@[simp]
theorem leaves_renameLiteral (t : TyTerm ν) : (t.renameLiteral old new).leaves = t.leaves := by
  induction t with
  | var v => rfl
  | lit name args ih =>
    rw [renameLiteral_lit, leaves_lit, leaves_lit, List.flatMap_map, List.flatMap_def,
      List.flatMap_def, List.map_congr_left ih]
  | fn domain codomain ihd ihc => rw [renameLiteral_fn, leaves_fn, leaves_fn, ihd, ihc]

theorem uncurry_renameLiteral (t : TyTerm ν) :
    (t.renameLiteral old new).uncurry =
      (t.uncurry.1.map (renameLiteral old new), t.uncurry.2.renameLiteral old new) := by
  induction t using uncurry.induct with
  | case1 domain codomain ih => rw [renameLiteral_fn, uncurry, ih, uncurry, List.map_cons]
  | case2 t h =>
    cases t with
    | var v => rfl
    | lit name args => rfl
    | fn domain codomain => exact absurd rfl (h domain codomain)

theorem renameLiteral_self (name : String) (t : TyTerm ν) : t.renameLiteral name name = t := by
  induction t with
  | var v => rfl
  | lit other args ih =>
    rw [renameLiteral_lit, List.map_congr_left ih, List.map_id']
    split
    · next h => rw [h]
    · rfl
  | fn domain codomain ihd ihc => rw [renameLiteral_fn, ihd, ihc]

theorem literalNames_lit (name : String) (args : List (TyTerm ν)) :
    (lit name args).literalNames = name :: args.flatMap literalNames := by
  rw [literalNames]
  congr 1
  induction args with
  | nil => rfl
  | cons t rest ih => rw [literalNamesAll, List.flatMap_cons, ih]

theorem literalNames_map (f : ν → μ) (t : TyTerm ν) :
    (t.map f).literalNames = t.literalNames := by
  induction t with
  | var v => rfl
  | lit name args ih =>
    rw [map_lit, literalNames_lit, literalNames_lit, List.flatMap_map, List.flatMap_def,
      List.flatMap_def, List.map_congr_left ih]
  | fn domain codomain ihd ihc => rw [map_fn, literalNames, literalNames, ihd, ihc]

theorem mem_literalNames_bind_iff {f : ν → TyTerm μ} {t : TyTerm ν} {name : String} :
    name ∈ (t.bind f).literalNames ↔
      name ∈ t.literalNames ∨ ∃ v ∈ t.leaves, name ∈ (f v).literalNames := by
  induction t with
  | var v => simp [literalNames]
  | lit other args ih =>
    simp only [bind_lit, literalNames_lit, leaves_lit, List.mem_cons, List.mem_flatMap,
      List.mem_map, exists_exists_and_eq_and]
    constructor
    · rintro (rfl | ⟨u, hu, hname⟩)
      · exact .inl (.inl rfl)
      · rcases (ih u hu).mp hname with hname | ⟨v, hv, hname⟩
        · exact .inl (.inr ⟨u, hu, hname⟩)
        · exact .inr ⟨v, ⟨u, hu, hv⟩, hname⟩
    · rintro ((rfl | ⟨u, hu, hname⟩) | ⟨v, ⟨u, hu, hv⟩, hname⟩)
      · exact .inl rfl
      · exact .inr ⟨u, hu, (ih u hu).mpr (.inl hname)⟩
      · exact .inr ⟨u, hu, (ih u hu).mpr (.inr ⟨v, hv, hname⟩)⟩
  | fn domain codomain ihd ihc =>
    simp only [bind_fn, literalNames, leaves_fn, List.mem_append, ihd, ihc, or_and_right, exists_or]
    exact or_or_or_comm ..

theorem literalNames_renameLiteral (t : TyTerm ν) :
    (t.renameLiteral old new).literalNames =
      t.literalNames.map fun name => if name = old then new else name := by
  induction t with
  | var v => rfl
  | lit name args ih =>
    rw [renameLiteral_lit, literalNames_lit, literalNames_lit, List.map_cons, List.map_flatMap,
      List.flatMap_map, List.flatMap_def, List.flatMap_def, List.map_congr_left ih]
  | fn domain codomain ihd ihc =>
    rw [renameLiteral_fn, literalNames, literalNames, ihd, ihc, List.map_append]

variable {old} in
theorem renameLiteral_of_not_mem {t : TyTerm ν} (h : old ∉ t.literalNames) :
    t.renameLiteral old new = t := by
  induction t with
  | var v => rfl
  | lit name args ih =>
    rw [literalNames_lit, List.mem_cons, List.mem_flatMap] at h
    push Not at h
    rw [renameLiteral_lit, if_neg h.1.symm, List.map_congr_left fun u hu => ih u hu (h.2 u hu),
      List.map_id']
  | fn domain codomain ihd ihc =>
    rw [literalNames, List.mem_append, not_or] at h
    rw [renameLiteral_fn, ihd h.1, ihc h.2]

/-- Another name is given once and for all. -/
theorem renameLiteral_again (t : TyTerm ν) :
    (t.renameLiteral old new).renameLiteral old new = t.renameLiteral old new := by
  by_cases h : new = old
  · rw [h, renameLiteral_self]
  · refine renameLiteral_of_not_mem new ?_
    rw [literalNames_renameLiteral, List.mem_map]
    grind

end TyTerm

def Equation.renameLiteral (old new : String) (es : List Equation) : List Equation :=
  es.map fun e => (e.1.renameLiteral old new, e.2.renameLiteral old new)

namespace Subst

variable {old new : String} {es : List Equation} {l r : Ty}

def renameLiteral (old new : String) (σ : Subst) : Subst :=
  ⟨σ.bindings.map fun b => (b.1, b.2.renameLiteral old new)⟩

theorem image_renameLiteral (σ : Subst) (v : TyVar) :
    (σ.renameLiteral old new).image v = (σ.image v).renameLiteral old new := by
  rw [image, get?, renameLiteral, lookup_map_snd, image, get?]
  cases σ.bindings.lookup v <;> rfl

theorem replacing_renameLiteral (v : TyVar) (t : Ty) (w : TyVar) :
    (replacing v t w).renameLiteral old new = replacing v (t.renameLiteral old new) w := by
  rw [replacing, replacing]
  split <;> rfl

theorem insert_renameLiteral (σ : Subst) (v : TyVar) (t : Ty) :
    (σ.insert v t).renameLiteral old new =
      (σ.renameLiteral old new).insert v (t.renameLiteral old new) := by
  rw [insert, insert, renameLiteral, renameLiteral, List.map_cons, List.map_map, List.map_map]
  congr 2
  refine List.map_congr_left fun b _ => ?_
  simp only [Function.comp, TyTerm.renameLiteral_bind, replacing_renameLiteral]

theorem bindAll_renameLiteral (v : TyVar) (t : Ty) (es : List Equation) :
    Equation.renameLiteral old new (Equation.bindAll (replacing v t) es) =
      Equation.bindAll (replacing v (t.renameLiteral old new))
        (Equation.renameLiteral old new es) := by
  rw [Equation.renameLiteral, Equation.bindAll, Equation.bindAll, Equation.renameLiteral,
    List.map_map, List.map_map]
  refine List.map_congr_left fun e _ => ?_
  simp only [Function.comp, TyTerm.renameLiteral_bind, replacing_renameLiteral]

theorem compareHeads_renameLiteral_variables {v w : TyVar} (h : compareHeads l r = .variables v w) :
    compareHeads (l.renameLiteral old new) (r.renameLiteral old new) = .variables v w := by
  obtain ⟨rfl, rfl⟩ := compareHeads_variables h
  rfl

theorem compareHeads_renameLiteral_variable {t : Ty} {v : TyVar}
    (h : compareHeads l r = .variable v t) :
    compareHeads (l.renameLiteral old new) (r.renameLiteral old new) =
      .variable v (t.renameLiteral old new) := by
  revert h
  fun_cases compareHeads l r <;> simp only [reduceCtorEq, Comparison.variable.injEq, false_implies]
  all_goals
    rintro ⟨rfl, rfl⟩
    simp [compareHeads]

theorem compareHeads_renameLiteral_parts (h : compareHeads l r = .parts es) :
    compareHeads (l.renameLiteral old new) (r.renameLiteral old new) =
      .parts (Equation.renameLiteral old new es) := by
  revert h
  fun_cases compareHeads l r <;> simp only [reduceCtorEq, Comparison.parts.injEq, false_implies]
  case case8 name args name' args' hname hlen =>
    rintro rfl
    have hname : name = name' := by simpa using hname
    have hlen : args.length = args'.length := by simpa using hlen
    simp only [TyTerm.renameLiteral_lit, compareHeads, hname, ne_eq, not_true_eq_false, if_false,
      List.length_map, hlen]
    rw [List.zip_map]
    rfl
  case case9 domain codomain domain' codomain' =>
    rintro rfl
    rfl

/-- Equations that can be solved are solved by the same steps under another name. -/
theorem solveAll_renameLiteral {σ σ' : Subst} (h : σ.solveAll es = .ok σ') :
    (σ.renameLiteral old new).solveAll (Equation.renameLiteral old new es) =
      .ok (σ'.renameLiteral old new) := by
  induction σ, es using solveAll.induct with
  | case1 σ =>
    rw [solveAll] at h
    cases h
    rw [Equation.renameLiteral, List.map_nil, solveAll]
  | case2 σ l r rest w hc ih =>
    rw [solveAll_cons, hc] at h
    simp only [if_true] at h
    rw [Equation.renameLiteral, List.map_cons, solveAll_cons,
      compareHeads_renameLiteral_variables hc]
    simp only [if_true]
    exact ih h
  | case3 σ l r rest v w hc hvw ih =>
    rw [solveAll_cons, hc] at h
    simp only [hvw, if_false] at h
    rw [Equation.renameLiteral, List.map_cons, solveAll_cons,
      compareHeads_renameLiteral_variables hc]
    simp only [hvw, if_false]
    have hrest := ih h
    rwa [insert_renameLiteral, bindAll_renameLiteral] at hrest
  | case4 σ l r rest v t hc hocc =>
    rw [solveAll_cons, hc] at h
    simp only [hocc, if_true] at h
    cases h
  | case5 σ l r rest v t hc hocc ih =>
    rw [solveAll_cons, hc] at h
    simp only [hocc, Bool.false_eq_true, if_false] at h
    have hocc' : ¬ (t.renameLiteral old new).occurs v = true := by
      rw [TyTerm.occurs_iff, TyTerm.leaves_renameLiteral, ← TyTerm.occurs_iff]
      exact hocc
    rw [Equation.renameLiteral, List.map_cons, solveAll_cons,
      compareHeads_renameLiteral_variable hc]
    simp only [hocc', Bool.false_eq_true, if_false]
    have hrest := ih h
    rwa [insert_renameLiteral, bindAll_renameLiteral] at hrest
  | case6 σ l r rest equations hc ih =>
    rw [solveAll_cons, hc] at h
    rw [Equation.renameLiteral, List.map_cons, solveAll_cons, compareHeads_renameLiteral_parts hc]
    have hrest := ih h
    rwa [Equation.renameLiteral, List.map_append] at hrest
  | case7 σ l r rest kind hc =>
    rw [solveAll_cons, hc] at h
    cases h

theorem solveAll_mostGeneral {σ : Subst} (h : empty.solveAll es = .ok σ) :
    MostGeneral σ.image es := by
  have hr := solveAll_resolved empty es empty_dereferenced fun _ _ => rfl
  rw [h] at hr
  exact ⟨hr.1, fun f => (hr.2 f).trans (and_iff_right (absorbs_var f))⟩

/-- Equations that have a solution have a most general one, which solving finds. -/
theorem solveAll_ok_of_solves {θ : TyVar → Ty} (h : Solves θ es) :
    ∃ σ, empty.solveAll es = .ok σ := by
  have hr := solveAll_resolved empty es empty_dereferenced fun _ _ => rfl
  cases hsolve : empty.solveAll es with
  | ok σ => exact ⟨σ, rfl⟩
  | error e =>
    rw [hsolve] at hr
    exact absurd ⟨absorbs_var θ, h⟩ (hr θ)

end Subst

theorem exists_mostGeneral {θ : TyVar → Ty} (h : Solves θ es) : ∃ z, MostGeneral z es := by
  obtain ⟨σ, hσ⟩ := Subst.solveAll_ok_of_solves h
  exact ⟨σ.image, Subst.solveAll_mostGeneral hσ⟩

theorem MostGeneral.renameLiteral {z : TyVar → Ty} (hz : MostGeneral z es) (old new : String) :
    MostGeneral (fun v => (z v).renameLiteral old new) (Equation.renameLiteral old new es) := by
  let φ : Ty → Ty := TyTerm.renameLiteral old new
  have hbind : ∀ (t : Ty) (f : TyVar → Ty), φ (t.bind f) = (φ t).bind fun v => φ (f v) :=
    fun t f => TyTerm.renameLiteral_bind old new f t
  obtain ⟨σ, hσ⟩ := Subst.solveAll_ok_of_solves hz.solves
  -- The solution that is computed, before and after.
  have hy := Subst.solveAll_mostGeneral hσ
  have hy' : MostGeneral (fun v => φ (σ.image v)) (Equation.renameLiteral old new es) := by
    have himage : (σ.renameLiteral old new).image = fun v => φ (σ.image v) :=
      funext (Subst.image_renameLiteral σ)
    rw [← himage]
    exact Subst.solveAll_mostGeneral (Subst.solveAll_renameLiteral hσ)
  refine ⟨fun v => ?_, fun h => ⟨fun habs => ?_, fun hs v => ?_⟩⟩
  · show (φ (z v)).bind (fun v => φ (z v)) = φ (z v)
    rw [← hbind, hz.idempotent v]
  · rw [← hy'.absorbs_iff h]
    intro v
    show (φ (σ.image v)).bind h = h v
    rw [← habs.bind]
    show ((φ (σ.image v)).bind fun v => φ (z v)).bind h = h v
    rw [← hbind, hy.absorbs hz.solves v]
    exact habs v
  · have habs := hy'.absorbs hs
    show (φ (z v)).bind h = h v
    rw [← habs.bind, ← hbind, hz.absorbs hy.solves v]
    exact habs v

/-- A family that is principal for some conditions and equations is so under the new name, if the
conditions have a principal family by themselves and carry over. -/
theorem Generates.renameLiteral {ι : Type} {τ σ : ι → Ty} {dom : ι → Prop} {S S' : (ι → Ty) → Prop}
    {W : ι → ι → Prop} {old new : String} (hτ : Generates τ dom S)
    (hτ' : Generates (fun i => (τ i).renameLiteral old new) dom S')
    (hW : ∀ i j, W i j → dom i ∧ dom j ∧ (τ i, τ j) ∈ es)
    (hes : ∀ e ∈ es, ∃ i j, W i j ∧ e = (τ i, τ j))
    (hσ : Generates σ dom fun A => S A ∧ ∀ i j, W i j → A i = A j) :
    Generates (fun i => (σ i).renameLiteral old new) dom
      fun A => S' A ∧ ∀ i j, W i j → A i = A j := by
  obtain ⟨hS, hequal⟩ := hσ.self
  obtain ⟨θ, hθ⟩ := hτ.instance_of_mem hS
  obtain ⟨z, hz⟩ : ∃ z, MostGeneral z es := by
    refine exists_mostGeneral (θ := θ) fun e he => ?_
    obtain ⟨i, j, hij, rfl⟩ := hes e he
    obtain ⟨hi, hj, _⟩ := hW i j hij
    exact (hθ i hi).symm.trans ((hequal i j hij).trans (hθ j hj))
  have hsolved := hτ.solve hz hW fun e he => .inl (hes e he)
  have hsolved' := hτ'.solve (hz.renameLiteral old new) (W := W)
    (fun i j hij => ⟨(hW i j hij).1, (hW i j hij).2.1, List.mem_map.mpr ⟨_, (hW i j hij).2.2, rfl⟩⟩)
    fun e he => by
      obtain ⟨e', he', rfl⟩ := List.mem_map.mp he
      obtain ⟨i, j, hij, rfl⟩ := hes e' he'
      exact .inl ⟨i, j, hij, rfl⟩
  -- The family and the solved one are instances of each other, before and after.
  obtain ⟨ρ, hρ⟩ := hsolved.instance_of_mem hσ.self
  obtain ⟨π, hπ⟩ := hσ.instance_of_mem hsolved.self
  have hsolvedρ : ∀ i, dom i → (σ i).renameLiteral old new =
      (((τ i).renameLiteral old new).bind fun v => (z v).renameLiteral old new).bind
        fun v => (ρ v).renameLiteral old new := fun i hi => by
    rw [hρ i hi, TyTerm.renameLiteral_bind, TyTerm.renameLiteral_bind]
  refine hsolved'.of_variant ((hsolved' _).mpr ⟨_, hsolvedρ⟩)
    (θ := fun v => (π v).renameLiteral old new) fun i hi => ?_
  rw [← TyTerm.renameLiteral_bind, ← TyTerm.renameLiteral_bind, hπ i hi]

/-- A most general solution has no literals but those of its equations, and where the equations
respect a division of the variables, each side has only those of its own equations.

The proof renames a literal on the one side.  This is a solution too if no equation of this side has
the literal, so `z` must read through it, and cannot have the literal there. -/
theorem MostGeneral.not_mem_literalNames_of_divided {z : TyVar → Ty} (hz : MostGeneral z es)
    (side : TyVar → Prop) {name : String}
    (hes : ∀ e ∈ es, ((∀ v ∈ e.1.leaves ++ e.2.leaves, side v) ∧
        name ∉ e.1.literalNames ∧ name ∉ e.2.literalNames) ∨
      ∀ v ∈ e.1.leaves ++ e.2.leaves, ¬ side v) {v : TyVar} (hv : side v) :
    name ∉ (z v).literalNames := by
  classical
  obtain ⟨other, hother⟩ : ∃ other : String, other ≠ name := by
    by_cases hname : name = ""
    · exact ⟨"a", by simp [hname]⟩
    · exact ⟨"", fun heq => hname heq.symm⟩
  let f : TyVar → Ty := fun v => if side v then (z v).renameLiteral name other else z v
  have hside : ∀ t : Ty, (∀ v ∈ t.leaves, side v) → name ∉ t.literalNames →
      t.bind f = (t.bind z).renameLiteral name other := by
    intro t ht hname
    rw [TyTerm.renameLiteral_bind, TyTerm.renameLiteral_of_not_mem other hname]
    exact TyTerm.bind_congr fun v hv => if_pos (ht v hv)
  have hrest : ∀ t : Ty, (∀ v ∈ t.leaves, ¬ side v) → t.bind f = t.bind z := fun t ht =>
    TyTerm.bind_congr fun v hv => if_neg (ht v hv)
  have hsolves : Solves f es := by
    intro e he
    have heq := hz.solves e he
    rcases hes e he with ⟨hv, hl, hr⟩ | hv
    · rw [hside _ (fun v hv' => hv v (List.mem_append_left _ hv')) hl,
        hside _ (fun v hv' => hv v (List.mem_append_right _ hv')) hr, heq]
    · rw [hrest _ fun v hv' => hv v (List.mem_append_left _ hv'),
        hrest _ fun v hv' => hv v (List.mem_append_right _ hv'), heq]
  intro hmem
  have hread : (z v).bind f = (z v).renameLiteral name other :=
    (hz.absorbs hsolves v).trans (if_pos hv)
  have hkept : name ∈ ((z v).bind f).literalNames :=
    TyTerm.mem_literalNames_bind_iff.mpr (.inl hmem)
  rw [hread, TyTerm.literalNames_renameLiteral, List.mem_map] at hkept
  obtain ⟨given, _, hgiven⟩ := hkept
  split at hgiven
  · exact hother hgiven
  · next hne => exact hne hgiven

end BlockGraph
