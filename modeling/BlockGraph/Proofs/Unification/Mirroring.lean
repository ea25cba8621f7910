import BlockGraph.Proofs.Unification.Agreement

/-!
# Solving renamed equations

A solver does with renamed equations what it does with the equations themselves,
even where it has met other equations before, as long as these speak of other
variables.  `Mirrors π V s s'` says that `s'` holds about the variable `π v` what
`s` holds about `v`, for every variable `v` in `V`: the representative, its rank,
which decides the next merge, and the value.  Outside `V` the two solvers may
differ.

Solving equations over `V` keeps the correspondence, fails on both sides with the
same error up to the renaming, and leaves the variables outside `V` alone.
-/

namespace BlockGraph

def TypeError.map (f : TyVar → TyVar) : TypeError → TypeError
  | .occurs v t => .occurs (f v) (t.map f)
  | .mismatch kind l r => .mismatch kind (l.map f) (r.map f)
  | .invalidSignature fault => .invalidSignature fault
  | .nameCollision candidate attempts => .nameCollision candidate attempts
  | .dangling reference => .dangling reference

/-! ## What a merge does -/

namespace Classes

variable {c : Classes} {v w : TyVar}

/-- How the classes of two variables are merged, if they are different. -/
def union (c : Classes) (v w : TyVar) : Merge :=
  if c.rank (c.rep w) < c.rank (c.rep v) then ⟨c.rep w, c.rep v, c.rank (c.rep v)⟩
  else if c.rank (c.rep v) < c.rank (c.rep w) then ⟨c.rep v, c.rep w, c.rank (c.rep w)⟩
  else ⟨c.rep v, c.rep w, c.rank (c.rep w) + 1⟩

theorem merges_merge (h : c.rep v ≠ c.rep w) : (c.merge v w).merges = c.union v w :: c.merges := by
  unfold merge union
  simp only [h, dite_false]
  split
  · rfl
  · split <;> rfl

theorem rep_merge_eq (h : c.rep v ≠ c.rep w) (x : TyVar) :
    (c.merge v w).rep x = (c.union v w).redirect (c.rep x) := by
  rw [rep, merges_merge h]
  rfl

theorem rank_merge (h : c.rep v ≠ c.rep w) (x : TyVar) :
    (c.merge v w).rank x = if (c.union v w).kept = x then (c.union v w).rank else c.rank x := by
  rw [rank, merges_merge h, List.find?_cons]
  by_cases hx : (c.union v w).kept = x
  · simp [hx]
  · simp [hx, rank]

/-- A merge speaks of the two representatives only. -/
theorem union_ends (c : Classes) (v w : TyVar) :
    (c.union v w).absorbed = c.rep v ∧ (c.union v w).kept = c.rep w ∨
      (c.union v w).absorbed = c.rep w ∧ (c.union v w).kept = c.rep v := by
  unfold union
  split
  · exact .inr ⟨rfl, rfl⟩
  · split
    · exact .inl ⟨rfl, rfl⟩
    · exact .inl ⟨rfl, rfl⟩

end Classes

namespace Solver

theorem rank_assign (s : Solver) (v : TyVar) (t : Ty) (x : TyVar) :
    (s.assign v t).classes.rank x = s.classes.rank x := by
  simp only [assign, learn]
  split <;> rfl

/-- The solver holds nothing about the variable. -/
structure Untouched (s : Solver) (x : TyVar) : Prop where
  rep : s.rep x = x
  rank : s.classes.rank x = 0
  value : s.value? x = none

theorem empty_untouched (x : TyVar) : empty.Untouched x :=
  ⟨rfl, rfl, rfl⟩

/-- The second solver holds about the renamed variables of `V` what the first holds about these. -/
structure Mirrors (π : Equiv.Perm TyVar) (V : TyVar → Prop) (s s' : Solver) : Prop where
  layered : s.Layered
  layered' : s'.Layered
  rep_mem : ∀ v, V v → V (s.rep v)
  value_mem : ∀ v t, V v → s.value? v = some t → ∀ w ∈ t.leaves, V w
  rep : ∀ v, V v → s'.rep (π v) = π (s.rep v)
  rank : ∀ v, V v → s'.classes.rank (π v) = s.classes.rank v
  value : ∀ v, V v → s'.value? (π v) = (s.value? v).map (TyTerm.map π)

theorem mirrors_of_untouched {π : Equiv.Perm TyVar} {V : TyVar → Prop} {s : Solver}
    (hs : s.Layered) (hV : ∀ v, V v → s.Untouched v) : Mirrors π V s empty where
  layered := hs
  layered' := empty_layered
  rep_mem v hv := by rwa [(hV v hv).rep]
  value_mem v t hv ht := by
    rw [(hV v hv).value] at ht
    cases ht
  rep v hv := by
    rw [(hV v hv).rep]
    rfl
  rank v hv := by
    rw [(hV v hv).rank]
    rfl
  value v hv := by
    rw [(hV v hv).value]
    rfl

namespace Mirrors

variable {π : Equiv.Perm TyVar} {V : TyVar → Prop} {s s' : Solver} {v w x : TyVar} {t : Ty}

theorem value_none (h : Mirrors π V s s') (hv : V v) (hnone : s.value? v = none) :
    s'.value? (π v) = none := by
  rw [h.value v hv, hnone]
  rfl

theorem rep_eq_iff (h : Mirrors π V s s') (hv : V v) (hw : V w) :
    s'.rep (π v) = s'.rep (π w) ↔ s.rep v = s.rep w := by
  rw [h.rep v hv, h.rep w hw]
  exact π.injective.eq_iff

theorem map_rep (h : Mirrors π V s s') (ht : ∀ w ∈ t.leaves, V w) :
    (t.map π).map s'.rep = (t.map s.rep).map π := by
  rw [TyTerm.map_map, TyTerm.map_map]
  exact TyTerm.map_congr fun w hw => h.rep w (ht w hw)

theorem leaves_map_rep (h : Mirrors π V s s') (ht : ∀ w ∈ t.leaves, V w) :
    ∀ w ∈ (t.map s.rep).leaves, V w := by
  intro w hw
  obtain ⟨y, hy, rfl⟩ := TyTerm.mem_leaves_map_iff.mp hw
  exact h.rep_mem y (ht y hy)

/-! ## Expansion -/

theorem expandBy (h : Mirrors π V s s') (k : Nat) (ht : ∀ w ∈ t.leaves, V w) :
    s'.expandBy k (t.map π) = (s.expandBy k t).map π ∧ ∀ w ∈ (s.expandBy k t).leaves, V w := by
  induction k generalizing t with
  | zero => exact ⟨rfl, ht⟩
  | succ k ih =>
    have hvar : ∀ v ∈ t.leaves, ∀ u, s.value? v = some u →
        s'.expandBy k (u.map π) = (s.expandBy k u).map π ∧ ∀ w ∈ (s.expandBy k u).leaves, V w :=
      fun v hv u hu => ih (h.value_mem v u (ht v hv) hu)
    rw [Solver.expandBy, Solver.expandBy]
    constructor
    · rw [TyTerm.bind_map, TyTerm.map_bind]
      refine TyTerm.bind_congr fun v hv => ?_
      rw [Function.comp_apply, h.value v (ht v hv)]
      cases hu : s.value? v with
      | none => rfl
      | some u => exact (hvar v hv u hu).1
    · intro w hw
      obtain ⟨v, hv, hw⟩ := TyTerm.mem_leaves_bind_iff.mp hw
      cases hu : s.value? v with
      | none =>
        rw [hu] at hw
        rw [List.mem_singleton.mp hw]
        exact ht v hv
      | some u =>
        rw [hu] at hw
        exact (hvar v hv u hu).2 w hw

/-- The numbers of values on the two sides may differ, but both are enough rounds. -/
theorem expand (h : Mirrors π V s s') (ht : ∀ w ∈ t.leaves, V w) :
    s'.expand (t.map π) = (s.expand t).map π := by
  rw [← expandBy_eq_expand h.layered' _ (Nat.le_max_left s'.values.length s.values.length),
    ← expandBy_eq_expand h.layered _ (Nat.le_max_right s'.values.length s.values.length)]
  exact (h.expandBy _ ht).1

theorem leaves_expand (h : Mirrors π V s s') (ht : ∀ w ∈ t.leaves, V w) :
    ∀ w ∈ (s.expand t).leaves, V w :=
  (h.expandBy _ ht).2

/-! ## Merging two classes -/

theorem union (h : Mirrors π V s s') (hv : V v) (hw : V w) :
    s'.classes.union (π v) (π w) =
      ⟨π (s.classes.union v w).absorbed, π (s.classes.union v w).kept,
        (s.classes.union v w).rank⟩ := by
  have hrv : s'.classes.rep (π v) = π (s.classes.rep v) := h.rep v hv
  have hrw : s'.classes.rep (π w) = π (s.classes.rep w) := h.rep w hw
  have hkv : s'.classes.rank (π (s.classes.rep v)) = s.classes.rank (s.classes.rep v) :=
    h.rank _ (h.rep_mem v hv)
  have hkw : s'.classes.rank (π (s.classes.rep w)) = s.classes.rank (s.classes.rep w) :=
    h.rank _ (h.rep_mem w hw)
  unfold Classes.union
  rw [hrv, hrw, hkv, hkw]
  split
  · rfl
  · split <;> rfl

theorem union_mem (h : Mirrors π V s s') (hv : V v) (hw : V w) :
    V (s.classes.union v w).absorbed ∧ V (s.classes.union v w).kept := by
  rcases s.classes.union_ends v w with ⟨ha, hk⟩ | ⟨ha, hk⟩
  · rw [ha, hk]
    exact ⟨h.rep_mem v hv, h.rep_mem w hw⟩
  · rw [ha, hk]
    exact ⟨h.rep_mem w hw, h.rep_mem v hv⟩

theorem merge (h : Mirrors π V s s') (hv : V v) (hw : V w) (hnv : s.value? v = none)
    (hnw : s.value? w = none) : Mirrors π V (s.merge v w) (s'.merge (π v) (π w)) := by
  have hnv' := h.value_none hv hnv
  have hnw' := h.value_none hw hnw
  have hvalue : ∀ x, V x →
      (s'.merge (π v) (π w)).value? (π x) = ((s.merge v w).value? x).map (TyTerm.map π) := by
    intro x hx
    rw [value?_merge hnv' hnw', value?_merge hnv hnw, h.value x hx]
  have hmem : ∀ x t, V x → (s.merge v w).value? x = some t → ∀ y ∈ t.leaves, V y := by
    intro x t hx hxt
    rw [value?_merge hnv hnw] at hxt
    exact h.value_mem x t hx hxt
  by_cases he : s.rep v = s.rep w
  · have he' : s'.rep (π v) = s'.rep (π w) := (h.rep_eq_iff hv hw).mpr he
    refine ⟨merge_layered h.layered hnv hnw, merge_layered h.layered' hnv' hnw', ?_, hmem, ?_, ?_,
      hvalue⟩
    · rw [rep_merge_of_rep_eq he]
      exact h.rep_mem
    · rw [rep_merge_of_rep_eq he, rep_merge_of_rep_eq he']
      exact h.rep
    · intro x hx
      show (s'.classes.merge (π v) (π w)).rank (π x) = (s.classes.merge v w).rank x
      rw [Classes.merge_of_rep_eq _ _ _ he, Classes.merge_of_rep_eq _ _ _ he', h.rank x hx]
  · have he' : s'.rep (π v) ≠ s'.rep (π w) := fun hr => he ((h.rep_eq_iff hv hw).mp hr)
    refine ⟨merge_layered h.layered hnv hnw, merge_layered h.layered' hnv' hnw', ?_, hmem, ?_, ?_,
      hvalue⟩
    · intro x hx
      rw [rep_merge, Classes.rep_merge_eq he, Merge.redirect]
      split
      · exact (h.union_mem hv hw).2
      · exact h.rep_mem x hx
    · intro x hx
      have hx' : s'.classes.rep (π x) = π (s.classes.rep x) := h.rep x hx
      rw [rep_merge, rep_merge, Classes.rep_merge_eq he, Classes.rep_merge_eq he', h.union hv hw,
        hx', Merge.redirect, Merge.redirect]
      by_cases hr : s.classes.rep x = (s.classes.union v w).absorbed
      · rw [if_pos hr, if_pos (congrArg π hr)]
      · rw [if_neg hr, if_neg fun hπ => hr (π.injective hπ)]
    · intro x hx
      show (s'.classes.merge (π v) (π w)).rank (π x) = (s.classes.merge v w).rank x
      rw [Classes.rank_merge he, Classes.rank_merge he', h.union hv hw, h.rank x hx]
      by_cases hk : (s.classes.union v w).kept = x
      · rw [if_pos hk, if_pos (congrArg π hk)]
      · rw [if_neg hk, if_neg fun hπ => hk (π.injective hπ)]

theorem untouched_merge (h : Mirrors π V s s') (hv : V v) (hw : V w) (hnv : s.value? v = none)
    (hnw : s.value? w = none) (hx : ¬V x) (hu : s.Untouched x) : (s.merge v w).Untouched x := by
  have hvalue : (s.merge v w).value? x = none := by rw [value?_merge hnv hnw, hu.value]
  by_cases he : s.rep v = s.rep w
  · refine ⟨by rw [rep_merge_of_rep_eq he, hu.rep], ?_, hvalue⟩
    show (s.classes.merge v w).rank x = 0
    rw [Classes.merge_of_rep_eq _ _ _ he, hu.rank]
  · have hrep : s.classes.rep x = x := hu.rep
    refine ⟨?_, ?_, hvalue⟩
    · rw [rep_merge, Classes.rep_merge_eq he, hrep, Merge.redirect, if_neg]
      rintro rfl
      exact hx (h.union_mem hv hw).1
    · show (s.classes.merge v w).rank x = 0
      rw [Classes.rank_merge he, if_neg, hu.rank]
      rintro rfl
      exact hx (h.union_mem hv hw).2

/-! ## Giving a value to a class -/

theorem assign (h : Mirrors π V s s') (hv : V v) (ht : ∀ w ∈ t.leaves, V w)
    (hnt : ∀ w ∈ t.leaves, s.value? w = none) (hocc : ∀ w ∈ t.leaves, s.rep w ≠ s.rep v) :
    Mirrors π V (s.assign v (t.map s.rep)) (s'.assign (π v) ((t.map π).map s'.rep)) := by
  refine ⟨assign_layered h.layered hnt hocc, assign_layered h.layered' ?_ ?_, ?_, ?_, ?_, ?_, ?_⟩
  · intro y hy
    obtain ⟨w, hw, rfl⟩ := TyTerm.mem_leaves_map_iff.mp hy
    exact h.value_none (ht w hw) (hnt w hw)
  · intro y hy
    obtain ⟨w, hw, rfl⟩ := TyTerm.mem_leaves_map_iff.mp hy
    exact fun he => hocc w hw ((h.rep_eq_iff (ht w hw) hv).mp he)
  · intro x hx
    rw [rep_assign]
    exact h.rep_mem x hx
  · intro x u hx hu
    rw [value?_assign] at hu
    split at hu
    · cases hu
      exact h.leaves_map_rep ht
    · exact h.value_mem x u hx hu
  · intro x hx
    rw [rep_assign, rep_assign, h.rep x hx]
  · intro x hx
    rw [rank_assign, rank_assign, h.rank x hx]
  · intro x hx
    rw [value?_assign, value?_assign, h.map_rep ht]
    by_cases hr : s.rep x = s.rep v
    · rw [if_pos hr, if_pos ((h.rep_eq_iff hx hv).mpr hr)]
      rfl
    · rw [if_neg hr, if_neg fun he => hr ((h.rep_eq_iff hx hv).mp he), h.value x hx]

theorem untouched_assign (h : Mirrors π V s s') (hv : V v) (t : Ty) (hx : ¬V x)
    (hu : s.Untouched x) : (s.assign v t).Untouched x := by
  refine ⟨by rw [rep_assign, hu.rep], by rw [rank_assign, hu.rank], ?_⟩
  rw [value?_assign, hu.rep, if_neg, hu.value]
  rintro rfl
  exact hx (h.rep_mem v hv)

theorem bind_replacingClass (h : Mirrors π V s s') (hv : V v) (u : Ty)
    (ht : ∀ w ∈ t.leaves, V w) :
    (t.map π).bind (s'.replacingClass (π v) (u.map π)) = (t.bind (s.replacingClass v u)).map π := by
  rw [TyTerm.bind_map, TyTerm.map_bind]
  refine TyTerm.bind_congr fun w hw => ?_
  show s'.replacingClass (π v) (u.map π) (π w) = (s.replacingClass v u w).map π
  rw [replacingClass, replacingClass]
  by_cases hr : s.rep w = s.rep v
  · rw [if_pos hr, if_pos ((h.rep_eq_iff (ht w hw) hv).mpr hr)]
  · rw [if_neg hr, if_neg fun he => hr ((h.rep_eq_iff (ht w hw) hv).mp he), TyTerm.map_var]

end Mirrors

/-! ## Solving -/

/-- Both sides fail with the same error up to the renaming, or both succeed, correspond again and
leave the variables outside `V` alone. -/
inductive Mirrored (π : Equiv.Perm TyVar) (V : TyVar → Prop) (s : Solver) :
    Except TypeError Solver → Except TypeError Solver → Prop
  | ok {s₁ s₁' : Solver} (h : Mirrors π V s₁ s₁')
      (hkept : ∀ x, ¬V x → s.Untouched x → s₁.Untouched x) : Mirrored π V s (.ok s₁) (.ok s₁')
  | error (e : TypeError) : Mirrored π V s (.error e) (.error (e.map π))

namespace Mirrored

variable {π : Equiv.Perm TyVar} {V : TyVar → Prop} {s s₁ : Solver}
  {r r' : Except TypeError Solver}

theorem of_kept (hkept : ∀ x, ¬V x → s.Untouched x → s₁.Untouched x)
    (h : Mirrored π V s₁ r r') : Mirrored π V s r r' := by
  cases h with
  | ok h hrest => exact .ok h fun x hx hu => hrest x hx (hkept x hx hu)
  | error e => exact .error e

end Mirrored

namespace Mirrors

variable {π : Equiv.Perm TyVar} {V : TyVar → Prop} {s s' : Solver} {v : TyVar}

/-- The renamed equations after the replacement of a class. -/
theorem bindAll_replacingClass (h : Mirrors π V s s') (hv : V v) (u : Ty) {es : List Equation}
    (hes : ∀ w ∈ Equation.leaves es, V w) :
    Equation.bindAll (s'.replacingClass (π v) (u.map π))
        (Equation.bindAll (fun w => .var (π w)) es) =
      Equation.bindAll (fun w => .var (π w)) (Equation.bindAll (s.replacingClass v u) es) := by
  simp only [Equation.bindAll, List.map_map]
  refine List.map_congr_left fun e he => ?_
  have hside : ∀ t : Ty, (∀ w ∈ t.leaves, w ∈ e.1.leaves ++ e.2.leaves) →
      ∀ w ∈ t.leaves, V w := fun t ht w hw =>
    hes w (List.mem_flatMap.mpr ⟨e, he, ht w hw⟩)
  exact Prod.ext (h.bind_replacingClass hv u (hside e.1 fun w hw => by simp [hw]))
    (h.bind_replacingClass hv u (hside e.2 fun w hw => by simp [hw]))

private theorem mem_of_variable {l r t : Ty} {rest : List Equation}
    (hc : compareHeads l r = .variable v t) (hV : ∀ w ∈ Equation.leaves ((l, r) :: rest), V w) :
    V v ∧ ∀ w ∈ t.leaves, V w :=
  ⟨hV v (leaves_of_variable hc (.inl rfl)), fun w hw => hV w (leaves_of_variable hc (.inr hw))⟩

private theorem any_rep_iff (h : Mirrors π V s s') {t : Ty} (hv : V v) (ht : ∀ w ∈ t.leaves, V w) :
    ((t.map π).leaves.any fun w => s'.rep w = s'.rep (π v)) = true ↔
      (t.leaves.any fun w => s.rep w = s.rep v) = true := by
  simp only [List.any_eq_true, decide_eq_true_eq]
  constructor
  · rintro ⟨y, hy, he⟩
    obtain ⟨w, hw, rfl⟩ := TyTerm.mem_leaves_map_iff.mp hy
    exact ⟨w, hw, (h.rep_eq_iff (ht w hw) hv).mp he⟩
  · rintro ⟨w, hw, he⟩
    exact ⟨π w, TyTerm.mem_leaves_map_iff.mpr ⟨w, hw, rfl⟩, (h.rep_eq_iff (ht w hw) hv).mpr he⟩

theorem solveAll (s : Solver) (es : List Equation) (h : Mirrors π V s s')
    (hV : ∀ w ∈ Equation.leaves es, V w) (hes : ∀ w ∈ Equation.leaves es, s.value? w = none) :
    Mirrored π V s (s.solveAll es)
      (s'.solveAll (Equation.bindAll (fun w => .var (π w)) es)) := by
  induction s, es using Solver.solveAll.induct generalizing s' with
  | case1 s =>
    rw [Solver.solveAll, Equation.bindAll, List.map_nil, Solver.solveAll]
    exact .ok h fun _ _ hu => hu
  | case2 s l r rest v w hcmp ih =>
    have hcmp' := compareHeads_map π l r
    rw [hcmp] at hcmp'
    obtain ⟨rfl, rfl⟩ := compareHeads_variables hcmp
    have hVv : V v := hV v (by simp)
    have hVw : V w := hV w (by simp)
    have hnv : s.value? v = none := hes v (by simp)
    have hnw : s.value? w = none := hes w (by simp)
    rw [Equation.bindAll, List.map_cons, Solver.solveAll_cons, Solver.solveAll_cons, hcmp]
    exact (ih (h.merge hVv hVw hnv hnw) (fun x hx => hV x (by simp [hx]))
      fun x hx => by rw [value?_merge hnv hnw, hes x (by simp [hx])]).of_kept
        fun x hx hu => h.untouched_merge hVv hVw hnv hnw hx hu
  | case3 s l r rest v t hcmp hocc =>
    have hcmp' := compareHeads_map π l r
    rw [hcmp] at hcmp'
    obtain ⟨hVv, hVt⟩ := mem_of_variable hcmp hV
    have hocc' := (h.any_rep_iff hVv hVt).mpr hocc
    rw [Equation.bindAll, List.map_cons, Solver.solveAll_cons, hcmp]
    simp only [hocc, if_true]
    show Mirrored π V s _ (s'.solveAll ((l.map π, r.map π) :: _))
    rw [Solver.solveAll_cons, hcmp']
    simp only [Comparison.map, hocc', if_true, h.map_rep hVt]
    exact .error _
  | case4 s l r rest v t hcmp hocc ih =>
    have hcmp' := compareHeads_map π l r
    rw [hcmp] at hcmp'
    obtain ⟨hVv, hVt⟩ := mem_of_variable hcmp hV
    obtain ⟨-, hnt⟩ := unvalued_of_variable hcmp hes
    have hocc' : ¬_ := fun hany => hocc ((h.any_rep_iff hVv hVt).mp hany)
    rw [Equation.bindAll, List.map_cons, Solver.solveAll_cons, hcmp]
    simp only [hocc, Bool.false_eq_true, if_false]
    show Mirrored π V s _ (s'.solveAll ((l.map π, r.map π) :: Equation.bindAll _ rest))
    rw [Solver.solveAll_cons, hcmp']
    simp only [Comparison.map, hocc', if_false]
    have hocc : ∀ w ∈ t.leaves, s.rep w ≠ s.rep v := by simpa using hocc
    have hrest : ∀ w ∈ Equation.leaves rest, V w := fun x hx => hV x (by simp [hx])
    have hassign := h.assign hVv hVt hnt hocc
    rw [h.map_rep hVt] at hassign ⊢
    rw [h.bindAll_replacingClass hVv _ hrest]
    refine (ih hassign (fun x hx => ?_) fun x hx => ?_).of_kept
      fun x hx hu => h.untouched_assign hVv _ hx hu
    · obtain ⟨y, hy, hx⟩ := Equation.mem_leaves_bindAll hx
      rw [replacingClass] at hx
      split at hx
      · exact h.leaves_map_rep hVt x hx
      · rw [List.mem_singleton.mp hx]
        exact hrest y hy
    · exact value?_assign_bindAll hnt hocc (fun y hy => hes y (by simp [hy])) hx
  | case5 s l r rest equations hcmp ih =>
    have hcmp' := compareHeads_map π l r
    rw [hcmp] at hcmp'
    have hih := ih h (fun x hx => hV x (leaves_of_parts hcmp hx))
      fun x hx => hes x (leaves_of_parts hcmp hx)
    rw [Equation.bindAll, List.map_cons, Solver.solveAll_cons, hcmp]
    show Mirrored π V s _ (s'.solveAll ((l.map π, r.map π) :: _))
    rw [Solver.solveAll_cons, hcmp']
    simpa only [Comparison.map, Equation.bindAll, List.map_append] using hih
  | case6 s l r rest kind hcmp =>
    have hcmp' := compareHeads_map π l r
    rw [hcmp] at hcmp'
    have hl : ∀ w ∈ l.leaves, V w := fun w hw => hV w (by simp [hw])
    have hr : ∀ w ∈ r.leaves, V w := fun w hw => hV w (by simp [hw])
    rw [Equation.bindAll, List.map_cons, Solver.solveAll_cons, hcmp]
    show Mirrored π V s _ (s'.solveAll ((l.map π, r.map π) :: _))
    rw [Solver.solveAll_cons, hcmp']
    simp only [Comparison.map, h.map_rep hl, h.map_rep hr]
    exact .error _

theorem constrain (h : Mirrors π V s s') {l r : Ty} (hl : ∀ w ∈ l.leaves, V w)
    (hr : ∀ w ∈ r.leaves, V w) :
    Mirrored π V s (s.constrain l r) (s'.constrain (l.map π) (r.map π)) := by
  rw [Solver.constrain, Solver.constrain, h.expand hl, h.expand hr]
  refine solveAll s [(s.expand l, s.expand r)] h (fun w hw => ?_) (expand_unvalued h.layered l r)
  have hw : w ∈ (s.expand l).leaves ∨ w ∈ (s.expand r).leaves := by
    simpa [Equation.leaves] using hw
  exact hw.elim (h.leaves_expand hl w) (h.leaves_expand hr w)

end Mirrors

end Solver
end BlockGraph
