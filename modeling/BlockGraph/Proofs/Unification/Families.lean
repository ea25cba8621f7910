import BlockGraph.Proofs.Unification.MostGeneral
import BlockGraph.Ty.Supply
import Mathlib.Algebra.Group.End
import Mathlib.Data.Fintype.Sum
import Mathlib.Tactic.Choose

/-!
# Families of types and their instances

The types of several sockets form a family, and a substitution acts on all of its
members at once.  `Generates τ dom S` says that the families in `S` are the
instances of `τ`, as far as the indices in `dom` go: `τ` is a principal member.

Two facts make larger principal families from smaller ones.  Families without
common variables can be put together (`exists_common_instance`), and equations
between members are added by solving them (`Generates.solve`).  A principal family
is unique up to a renaming of its variables (`Generates.exists_perm`).
-/

namespace BlockGraph

variable {ι : Type}

/-- The families in `S` are the instances of the family `τ`. -/
def Generates (τ : ι → Ty) (dom : ι → Prop) (S : (ι → Ty) → Prop) : Prop :=
  ∀ A, S A ↔ ∃ θ : TyVar → Ty, ∀ i, dom i → A i = (τ i).bind θ

namespace Generates

variable {τ τ' : ι → Ty} {dom : ι → Prop} {S S' : (ι → Ty) → Prop}

theorem self (h : Generates τ dom S) : S τ :=
  (h τ).mpr ⟨.var, fun i _ => ((τ i).bind_self).symm⟩

theorem instance_of_mem (h : Generates τ dom S) {A : ι → Ty} (hA : S A) :
    ∃ θ : TyVar → Ty, ∀ i, dom i → A i = (τ i).bind θ :=
  (h A).mp hA

theorem congr_set (h : Generates τ dom S) (hS : ∀ A, S' A ↔ S A) : Generates τ dom S' :=
  fun A => (hS A).trans (h A)

theorem congr_family (h : Generates τ dom S) (hτ : ∀ i, dom i → τ' i = τ i) :
    Generates τ' dom S := by
  intro A
  rw [h A]
  exact exists_congr fun θ => forall₂_congr fun i hi => by rw [hτ i hi]

theorem of_variant (h : Generates τ dom S) (hτ : S τ') {θ : TyVar → Ty}
    (hθ : ∀ i, dom i → τ i = (τ' i).bind θ) : Generates τ' dom S := by
  obtain ⟨ρ, hρ⟩ := h.instance_of_mem hτ
  intro A
  rw [h A]
  constructor
  · rintro ⟨σ, hσ⟩
    refine ⟨fun v => (θ v).bind σ, fun i hi => ?_⟩
    rw [hσ i hi, hθ i hi, TyTerm.bind_bind]
  · rintro ⟨σ, hσ⟩
    refine ⟨fun v => (ρ v).bind σ, fun i hi => ?_⟩
    rw [hσ i hi, hρ i hi, TyTerm.bind_bind]

end Generates

/-- Families that have no variable in common have a common instance if each of them has one.  Here
the families are the parts that `part` divides one family into. -/
theorem exists_common_instance {κ : Type} {τ A : ι → Ty} {dom : ι → Prop} (part : ι → κ)
    (hpart : ∀ i j v, dom i → dom j → v ∈ (τ i).leaves → v ∈ (τ j).leaves → part i = part j)
    (h : ∀ k, ∃ θ : TyVar → Ty, ∀ i, dom i → part i = k → A i = (τ i).bind θ) :
    ∃ θ : TyVar → Ty, ∀ i, dom i → A i = (τ i).bind θ := by
  classical
  choose θ hθ using h
  refine ⟨fun v => if hv : ∃ i, dom i ∧ v ∈ (τ i).leaves then θ (part hv.choose) v else .var v,
    fun i hi => ?_⟩
  rw [hθ (part i) i hi rfl]
  refine TyTerm.bind_congr fun v hv => ?_
  have hex : ∃ i, dom i ∧ v ∈ (τ i).leaves := ⟨i, hi, hv⟩
  rw [dif_pos hex, hpart i hex.choose v hi hex.choose_spec.1 hv hex.choose_spec.2]

/-- Two families that have no variable in common have a common instance if each of them has one. -/
theorem exists_common_instance_of_disjoint {κ : Type} {τ A : ι → Ty} {σ B : κ → Ty}
    {dom : ι → Prop} {dom' : κ → Prop}
    (hdisjoint : ∀ i j v, dom i → dom' j → v ∈ (τ i).leaves → v ∉ (σ j).leaves)
    {θ θ' : TyVar → Ty} (h : ∀ i, dom i → A i = (τ i).bind θ)
    (h' : ∀ j, dom' j → B j = (σ j).bind θ') :
    ∃ ρ : TyVar → Ty, (∀ i, dom i → A i = (τ i).bind ρ) ∧ ∀ j, dom' j → B j = (σ j).bind ρ := by
  classical
  refine ⟨fun v => if ∃ i, dom i ∧ v ∈ (τ i).leaves then θ v else θ' v, fun i hi => ?_,
    fun j hj => ?_⟩
  · rw [h i hi]
    exact TyTerm.bind_congr fun v hv => (if_pos ⟨i, hi, hv⟩).symm
  · rw [h' j hj]
    refine TyTerm.bind_congr fun v hv => (if_neg ?_).symm
    rintro ⟨i, hi, hvi⟩
    exact hdisjoint i j v hi hj hvi hv

/-- Equations between members of a principal family are added by solving them.  The equations that
are solved may include others, as long as these have no variable of the family. -/
theorem Generates.solve {τ : ι → Ty} {dom : ι → Prop} {S : (ι → Ty) → Prop} {z : TyVar → Ty}
    {es : List Equation} (h : Generates τ dom S) (hz : MostGeneral z es) {W : ι → ι → Prop}
    (hW : ∀ i j, W i j → dom i ∧ dom j ∧ (τ i, τ j) ∈ es)
    (hes : ∀ e ∈ es, (∃ i j, W i j ∧ e = (τ i, τ j)) ∨
      ∀ i, dom i → ∀ v ∈ (τ i).leaves, v ∉ e.1.leaves ∧ v ∉ e.2.leaves) :
    Generates (fun i => (τ i).bind z) dom fun A => S A ∧ ∀ i j, W i j → A i = A j := by
  classical
  intro A
  show (S A ∧ ∀ i j, W i j → A i = A j) ↔ ∃ θ : TyVar → Ty, ∀ i, dom i → A i = ((τ i).bind z).bind θ
  rw [h A]
  constructor
  · rintro ⟨⟨θ, hθ⟩, hA⟩
    -- The instance as it is on the family's own variables, and the solution elsewhere.
    let f : TyVar → Ty := fun v => if ∃ i, dom i ∧ v ∈ (τ i).leaves then θ v else z v
    have hown : ∀ i, dom i → (τ i).bind f = A i := fun i hi => by
      rw [hθ i hi]
      exact TyTerm.bind_congr fun v hv => if_pos ⟨i, hi, hv⟩
    have hf : Solves f es := by
      intro e he
      rcases hes e he with ⟨i, j, hij, rfl⟩ | hforeign
      · obtain ⟨hi, hj, _⟩ := hW i j hij
        exact (hown i hi).trans ((hA i j hij).trans (hown j hj).symm)
      · have hother : ∀ t : Ty, (∀ i, dom i → ∀ v ∈ (τ i).leaves, v ∉ t.leaves) →
            t.bind f = t.bind z := fun t ht => by
          refine TyTerm.bind_congr fun v hv => if_neg ?_
          rintro ⟨i, hi, hvi⟩
          exact ht i hi v hvi hv
        rw [hother e.1 fun i hi v hv => (hforeign i hi v hv).1,
          hother e.2 fun i hi v hv => (hforeign i hi v hv).2]
        exact hz.solves e he
    exact ⟨f, fun i hi => by rw [(hz.absorbs hf).bind, hown i hi]⟩
  · rintro ⟨θ, hθ⟩
    refine ⟨⟨fun v => (z v).bind θ, fun i hi => by rw [hθ i hi, TyTerm.bind_bind]⟩,
      fun i j hij => ?_⟩
    obtain ⟨hi, hj, hmem⟩ := hW i j hij
    rw [hθ i hi, hθ j hj, hz.solves _ hmem]

/-! ## Principal families of the same set -/

/-- A renaming of finitely many variables that keeps them apart is part of a permutation that moves
nothing but the variables and what they are renamed to. -/
theorem exists_perm_of_injective {f : TyVar → TyVar} {vs : List TyVar}
    (hf : ∀ v ∈ vs, ∀ w ∈ vs, f v = f w → v = w) :
    ∃ π : Equiv.Perm TyVar, (∀ v ∈ vs, π v = f v) ∧ ∀ v, v ∉ vs → v ∉ vs.map f → π v = v := by
  classical
  let moved : Finset TyVar := vs.toFinset ∪ vs.toFinset.image f
  let named : Finset {v // v ∈ moved} := Finset.univ.filter fun v => v.1 ∈ vs
  have hnamed : ∀ v ∈ named, v.1 ∈ vs := fun v hv => (Finset.mem_filter.mp hv).2
  have hmoved : named.image (fun v => f v.1) ⊆ moved := by
    intro w hw
    obtain ⟨v, hv, rfl⟩ := Finset.mem_image.mp hw
    exact Finset.mem_union_right _ (Finset.mem_image_of_mem f (List.mem_toFinset.mpr (hnamed v hv)))
  have hinj : Set.InjOn (fun v : {v // v ∈ moved} => f v.1) named := by
    intro v hv w hw he
    exact Subtype.ext (hf v.1 (hnamed v hv) w.1 (hnamed w hw) he)
  obtain ⟨g, hg⟩ := Finset.exists_equiv_extend_of_card_eq (Fintype.card_coe moved) hmoved hinj
  refine ⟨Equiv.Perm.ofSubtype g, fun v hv => ?_, fun v hv hvf => ?_⟩
  · have hmem : v ∈ moved := Finset.mem_union_left _ (List.mem_toFinset.mpr hv)
    rw [Equiv.Perm.ofSubtype_apply_of_mem g hmem]
    exact hg ⟨v, hmem⟩ (Finset.mem_filter.mpr ⟨Finset.mem_univ _, hv⟩)
  · refine Equiv.Perm.ofSubtype_apply_of_not_mem g fun hmem => ?_
    rcases Finset.mem_union.mp hmem with hmem | hmem
    · exact hv (List.mem_toFinset.mp hmem)
    · obtain ⟨w, hw, rfl⟩ := Finset.mem_image.mp hmem
      exact hvf (List.mem_map_of_mem (List.mem_toFinset.mp hw))

/-- Families that are instances of each other differ by a renaming, which moves nothing but their
variables. -/
theorem exists_perm_of_instances {τ τ' : ι → Ty} {θ θ' : TyVar → Ty} {is : List ι}
    (h : ∀ i ∈ is, τ' i = (τ i).bind θ) (h' : ∀ i ∈ is, τ i = (τ' i).bind θ') :
    ∃ π : Equiv.Perm TyVar, (∀ i ∈ is, τ' i = (τ i).map π) ∧
      ∀ v, (∀ i ∈ is, v ∉ (τ i).leaves ∧ v ∉ (τ' i).leaves) → π v = v := by
  let vs := is.flatMap fun i => (τ i).leaves
  have hback : ∀ v ∈ vs, (θ v).bind θ' = .var v := by
    intro v hv
    obtain ⟨i, hi, hv⟩ := List.mem_flatMap.mp hv
    have hself : (τ i).bind (fun v => (θ v).bind θ') = τ i := by
      rw [← TyTerm.bind_bind, ← h i hi, ← h' i hi]
    exact TyTerm.bind_eq_self_iff.mp hself v hv
  -- Only a variable can become a variable.
  have hvar : ∀ v ∈ vs, ∃ w, θ v = .var w := by
    intro v hv
    have hv := hback v hv
    cases hθ : θ v with
    | var w => exact ⟨w, rfl⟩
    | lit name args =>
      rw [hθ, TyTerm.bind_lit] at hv
      cases hv
    | fn domain codomain =>
      rw [hθ, TyTerm.bind_fn] at hv
      cases hv
  choose! f hf using hvar
  have hinj : ∀ v ∈ vs, ∀ w ∈ vs, f v = f w → v = w := by
    intro v hv w hw he
    have hvw : θ v = θ w := by rw [hf v hv, hf w hw, he]
    have heq := hback v hv
    rw [hvw, hback w hw] at heq
    cases heq
    rfl
  obtain ⟨π, hπ, hfixed⟩ := exists_perm_of_injective hinj
  have hmap : ∀ i ∈ is, τ' i = (τ i).map π := by
    intro i hi
    rw [h i hi]
    refine TyTerm.bind_congr fun v hv => ?_
    have hv : v ∈ vs := List.mem_flatMap.mpr ⟨i, hi, hv⟩
    rw [hf v hv, hπ v hv]
  refine ⟨π, hmap, fun v hv => hfixed v (fun hmem => ?_) fun hmem => ?_⟩
  · obtain ⟨i, hi, hvi⟩ := List.mem_flatMap.mp hmem
    exact (hv i hi).1 hvi
  · obtain ⟨w, hw, rfl⟩ := List.mem_map.mp hmem
    obtain ⟨i, hi, hwi⟩ := List.mem_flatMap.mp hw
    refine (hv i hi).2 ?_
    rw [hmap i hi, ← hπ w hw]
    exact TyTerm.mem_leaves_map_iff.mpr ⟨w, hwi, rfl⟩

theorem Generates.exists_perm {τ τ' : ι → Ty} {dom : ι → Prop} {S : (ι → Ty) → Prop}
    (h : Generates τ dom S) (h' : Generates τ' dom S) {is : List ι} (his : ∀ i ∈ is, dom i) :
    ∃ π : Equiv.Perm TyVar, ∀ i ∈ is, τ' i = (τ i).map π := by
  obtain ⟨θ, hθ⟩ := h.instance_of_mem h'.self
  obtain ⟨θ', hθ'⟩ := h'.instance_of_mem h.self
  obtain ⟨π, hπ, _⟩ :=
    exists_perm_of_instances (fun i hi => hθ i (his i hi)) fun i hi => hθ' i (his i hi)
  exact ⟨π, hπ⟩

/-! ## Copies with other variables -/

namespace TyTerm

variable {ν μ : Type}

/-- What a type can become when its variables are renamed apart, it can become before. -/
theorem exists_bind_map [DecidableEq ν] {f : ν → μ} {vs : List ν}
    (hf : ∀ v ∈ vs, ∀ w ∈ vs, f v = f w → v = w) (θ : ν → Ty) (t₀ : Ty) :
    ∃ θ' : μ → Ty, ∀ t : TyTerm ν, (∀ v ∈ t.leaves, v ∈ vs) → (t.map f).bind θ' = t.bind θ := by
  classical
  refine ⟨fun w => if hw : ∃ v ∈ vs, f v = w then θ hw.choose else t₀, fun t ht => ?_⟩
  rw [bind_map]
  refine bind_congr fun v hv => ?_
  have hex : ∃ u ∈ vs, f u = f v := ⟨v, ht v hv, rfl⟩
  rw [Function.comp_apply, dif_pos hex,
    hf hex.choose hex.choose_spec.1 v (ht v hv) hex.choose_spec.2]

theorem uncurry_map (f : ν → μ) (t : TyTerm ν) :
    (t.map f).uncurry = (t.uncurry.1.map (map f), t.uncurry.2.map f) := by
  induction t using uncurry.induct with
  | case1 domain codomain ih => rw [map_fn, uncurry, ih, uncurry, List.map_cons]
  | case2 t h =>
    cases t with
    | var v => rfl
    | lit name args =>
      rw [map_lit, uncurry, uncurry, map_lit, List.map_nil]
      all_goals
        intro _ _ hfn
        cases hfn
    | fn domain codomain => exact absurd rfl (h domain codomain)

theorem leaves_uncurry (t : TyTerm ν) {u : TyTerm ν} (hu : u ∈ t.uncurry.1 ∨ u = t.uncurry.2)
    {v : ν} (hv : v ∈ u.leaves) : v ∈ t.leaves := by
  induction t using uncurry.induct with
  | case1 domain codomain ih =>
    rw [uncurry, List.mem_cons] at hu
    rw [leaves_fn, List.mem_append]
    rcases hu with (rfl | hu) | hu
    · exact .inl hv
    · exact .inr (ih (.inl hu))
    · exact .inr (ih (.inr hu))
  | case2 t h =>
    cases t with
    | var w =>
      rcases hu with hu | rfl
      · exact absurd hu List.not_mem_nil
      · exact hv
    | lit name args =>
      rcases hu with hu | rfl
      · exact absurd hu List.not_mem_nil
      · exact hv
    | fn domain codomain => exact absurd rfl (h domain codomain)

theorem leavesAll_uncurry (t : TyTerm ν) {v : ν}
    (hv : v ∈ leavesAll (t.uncurry.1 ++ [t.uncurry.2])) : v ∈ t.leaves := by
  rw [leavesAll_eq_flatMap] at hv
  obtain ⟨u, hu, hv⟩ := List.mem_flatMap.mp hv
  rw [List.mem_append, List.mem_singleton] at hu
  exact leaves_uncurry t hu hv

end TyTerm

theorem Supply.numbered_injective {ν : Type} [DecidableEq ν] (s : Supply) {vs : List ν} :
    ∀ v ∈ vs, ∀ w ∈ vs, s.numbered vs v = s.numbered vs w → v = w := by
  intro v hv w hw h
  have hidx : vs.idxOf v = vs.idxOf w := Nat.add_left_cancel h
  have hget := List.getElem_idxOf (List.idxOf_lt_length_of_mem hv)
  have hget' := List.getElem_idxOf (List.idxOf_lt_length_of_mem hw)
  simp only [hidx] at hget
  exact hget.symm.trans hget'

theorem Supply.numbered_range {ν : Type} [DecidableEq ν] (s : Supply) {vs : List ν} {v : ν}
    (hv : v ∈ vs) : s.next ≤ s.numbered vs v ∧ s.numbered vs v < (s.skip vs.length).next :=
  ⟨Nat.le_add_right _ _, Nat.add_lt_add_left (List.idxOf_lt_length_of_mem hv) _⟩

end BlockGraph
