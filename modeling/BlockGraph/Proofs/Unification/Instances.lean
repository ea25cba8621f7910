import BlockGraph.Proofs.Ty.Grammar
import BlockGraph.Proofs.Ty.Canonical
import BlockGraph.Proofs.Unification.Composition

/-!
# Instances do not interfere

Each use of a signature gets an instance with variables of its own, and is then unified with
what it is used on.  That two uses cannot disturb each other is a matter of which variables a
substitution has to do with.  Solving equations brings in no variables but theirs
(`mentioned_solveAll`), and bindings that have to do with none of these variables stay as they
are and change nothing on the way (`solveAll_frame`).  So unification on top of a
substitution that has no variable in common with the two types adds to it exactly what
it gives on its own (`unify_frame`).
-/

namespace BlockGraph

namespace Subst

variable {σ τ ρ : Subst} {v w : TyVar} {t l r : Ty} {es : List Equation}

/-! ## The variables that solving brings in -/

theorem mentioned_insert (hw : w ∈ (σ.insert v t).mentioned) :
    w ∈ σ.mentioned ∨ w = v ∨ w ∈ t.leaves := by
  rw [mentioned, domain_insert, List.cons_append, List.mem_cons, List.mem_append] at hw
  rcases hw with hw | hw | hw
  · exact .inr (.inl hw)
  · exact .inl (List.mem_append_left _ hw)
  obtain ⟨b, hb, hw⟩ := List.mem_flatMap.mp hw
  rcases List.mem_cons.mp hb with rfl | hb
  · exact .inr (.inr hw)
  -- In an old binding, the new one has been carried out.
  obtain ⟨b, hold, rfl⟩ := List.mem_map.mp hb
  obtain ⟨x, hx, hw⟩ := TyTerm.mem_leaves_bind_iff.mp hw
  by_cases hxv : x = v
  · rw [hxv, replacing_self] at hw
    exact .inr (.inr hw)
  · rw [replacing_of_ne t hxv, TyTerm.leaves_var, List.mem_singleton] at hw
    rw [hw]
    exact .inl (List.mem_append_right _ (List.mem_flatMap.mpr ⟨b, hold, hx⟩))

/-- The first of the equations is one between the variable and the type, so the variables of both
belong to the equations, and carrying out the binding in the others brings in no more. -/
structure Concerns (es rest : List Equation) (v : TyVar) (t : Ty) : Prop where
  bound : v ∈ Equation.leaves es
  type : ∀ w ∈ t.leaves, w ∈ Equation.leaves es
  rest : ∀ w ∈ Equation.leaves (Equation.bindAll (replacing v t) rest), w ∈ Equation.leaves es

theorem Concerns.of_leaves {e : Equation} {rest : List Equation}
    (hv : v ∈ e.1.leaves ++ e.2.leaves) (ht : ∀ w ∈ t.leaves, w ∈ e.1.leaves ++ e.2.leaves) :
    Concerns (e :: rest) rest v t := by
  have hsub : ∀ w ∈ e.1.leaves ++ e.2.leaves, w ∈ Equation.leaves (e :: rest) := fun w hw => by
    rw [Equation.leaves_cons]
    exact List.mem_append_left _ hw
  refine ⟨hsub v hv, fun w hw => hsub w (ht w hw), fun w hw => ?_⟩
  obtain ⟨x, hx, hw⟩ := Equation.mem_leaves_bindAll hw
  by_cases hxv : x = v
  · rw [hxv, replacing_self] at hw
    exact hsub w (ht w hw)
  · rw [replacing_of_ne t hxv, TyTerm.leaves_var, List.mem_singleton] at hw
    rw [hw, Equation.leaves_cons]
    exact List.mem_append_right _ hx

theorem Concerns.of_variables (rest : List Equation) (hc : compareHeads l r = .variables v w) :
    Concerns ((l, r) :: rest) rest v (.var w) := by
  obtain ⟨rfl, rfl⟩ := compareHeads_variables hc
  exact .of_leaves (by simp) (by simp)

theorem Concerns.of_variable (rest : List Equation) (hc : compareHeads l r = .variable v t) :
    Concerns ((l, r) :: rest) rest v t := by
  rcases compareHeads_variable hc with ⟨rfl, rfl⟩ | ⟨rfl, rfl⟩
  · exact .of_leaves (by simp) fun w hw => by simp [hw]
  · exact .of_leaves (by simp) fun w hw => by simp [hw]

theorem Concerns.mentioned {rest : List Equation} (h : Concerns es rest v t)
    (hw : w ∈ (σ.insert v t).mentioned ∨
      w ∈ Equation.leaves (Equation.bindAll (replacing v t) rest)) :
    w ∈ σ.mentioned ∨ w ∈ Equation.leaves es := by
  rcases hw with hw | hw
  · rcases mentioned_insert hw with hw | rfl | hw
    · exact .inl hw
    · exact .inr h.bound
    · exact .inr (h.type w hw)
  · exact .inr (h.rest w hw)

/-- Solving equations brings in no other variables. -/
theorem mentioned_solveAll (σ : Subst) (es : List Equation) (h : σ.solveAll es = .ok ρ)
    (hw : w ∈ ρ.mentioned) : w ∈ σ.mentioned ∨ w ∈ Equation.leaves es := by
  induction σ, es using solveAll.induct with
  | case1 σ =>
    rw [solveAll, Except.ok.injEq] at h
    exact .inl (h ▸ hw)
  | case2 σ l r rest x hc ih =>
    rw [solveAll_cons, hc] at h
    simp only [if_true] at h
    exact (ih h).imp_right fun hw => by simp [hw]
  | case3 σ l r rest x y hc hxy ih =>
    rw [solveAll_cons, hc] at h
    simp only [hxy, if_false] at h
    exact (Concerns.of_variables rest hc).mentioned (ih h)
  | case4 σ l r rest x t hc hocc =>
    rw [solveAll_cons, hc] at h
    simp only [hocc, if_true] at h
    cases h
  | case5 σ l r rest x t hc hocc ih =>
    rw [solveAll_cons, hc] at h
    simp only [hocc, Bool.false_eq_true, if_false] at h
    exact (Concerns.of_variable rest hc).mentioned (ih h)
  | case6 σ l r rest equations hc ih =>
    rw [solveAll_cons, hc] at h
    exact (ih h).imp_right (leaves_of_parts hc)
  | case7 σ l r rest kind hc =>
    rw [solveAll_cons, hc] at h
    cases h

/-! ## Bindings that are not concerned -/

/-- The bindings of both, those of `τ` first. -/
def above (τ σ : Subst) : Subst :=
  ⟨τ.bindings ++ σ.bindings⟩

theorem insert_above (hv : v ∉ σ.mentioned) : (τ.above σ).insert v t = (τ.insert v t).above σ := by
  have hkept : σ.bindings.map (fun b => (b.1, b.2.bind (replacing v t))) = σ.bindings := by
    conv_rhs => rw [← List.map_id σ.bindings]
    refine List.map_congr_left fun b hb => Prod.ext rfl (bind_replacing_of_not_mem fun hmem => ?_)
    exact hv (List.mem_append_right _ (List.mem_flatMap.mpr ⟨b, hb, hmem⟩))
  simp only [above, insert, List.map_append, hkept, List.cons_append]

/-- Bindings that have to do with no variable of the equations stay as they are, and solving goes
the same way as without them. -/
theorem solveAll_frame (τ : Subst) (es : List Equation)
    (h : ∀ w ∈ Equation.leaves es, w ∉ σ.mentioned) :
    (τ.above σ).solveAll es = (τ.solveAll es).map (above · σ) := by
  induction τ, es using solveAll.induct with
  | case1 τ => rw [solveAll, solveAll, Except.map]
  | case2 τ l r rest x hc ih =>
    rw [solveAll_cons, solveAll_cons, hc]
    simp only [if_true]
    exact ih fun w hw => h w (by simp [hw])
  | case3 τ l r rest x y hc hxy ih =>
    have hconcerns := Concerns.of_variables rest hc
    rw [solveAll_cons, solveAll_cons, hc]
    simp only [hxy, if_false]
    rw [insert_above (h x hconcerns.bound)]
    exact ih fun w hw => h w (hconcerns.rest w hw)
  | case4 τ l r rest x t hc hocc =>
    rw [solveAll_cons, solveAll_cons, hc]
    simp only [hocc, if_true, Except.map]
  | case5 τ l r rest x t hc hocc ih =>
    have hconcerns := Concerns.of_variable rest hc
    rw [solveAll_cons, solveAll_cons, hc]
    simp only [hocc, Bool.false_eq_true, if_false]
    rw [insert_above (h x hconcerns.bound)]
    exact ih fun w hw => h w (hconcerns.rest w hw)
  | case6 τ l r rest equations hc ih =>
    rw [solveAll_cons, solveAll_cons, hc]
    exact ih fun w hw => h w (leaves_of_parts hc hw)
  | case7 τ l r rest kind hc =>
    rw [solveAll_cons, solveAll_cons, hc, Except.map]

/-! ## Unification on top of other bindings -/

theorem empty_apply (t : Ty) : empty.apply t = t :=
  t.bind_self

theorem unify_eq_solveAll (l r : Ty) : BlockGraph.unify l r = empty.solveAll [(l, r)] := by
  rw [BlockGraph.unify, unify, empty_apply, empty_apply]

theorem mentioned_unify (h : BlockGraph.unify l r = .ok ρ) (hw : w ∈ ρ.mentioned) :
    w ∈ l.leaves ++ r.leaves := by
  rw [unify_eq_solveAll] at h
  rcases mentioned_solveAll _ _ h hw with hw | hw
  · simp [mentioned, domain, empty] at hw
  · simpa [Equation.leaves] using hw

theorem freshRenaming_apply (t : Ty) (s : Supply) :
    (freshRenaming t s).1.apply t = (t.instantiate s).1 := by
  refine TyTerm.bind_congr fun v hv => ?_
  rw [freshRenaming_image, if_pos hv]

theorem apply_of_unbound (h : ∀ w ∈ t.leaves, w ∉ σ.domain) : σ.apply t = t :=
  TyTerm.bind_eq_self_iff.mpr fun w hw => image_of_unbound (h w hw)

/-- Unification on top of bindings that have to do with no variable of the two types adds to them
what it gives on its own. -/
theorem unify_frame (h : ∀ w ∈ l.leaves ++ r.leaves, w ∉ σ.mentioned) :
    σ.unify l r = (BlockGraph.unify l r).map (above · σ) := by
  have hdomain : ∀ w ∈ l.leaves ++ r.leaves, w ∉ σ.domain := fun w hw hmem =>
    h w hw (List.mem_append_left _ hmem)
  rw [unify, apply_of_unbound fun w hw => hdomain w (List.mem_append_left _ hw),
    apply_of_unbound fun w hw => hdomain w (List.mem_append_right _ hw), unify_eq_solveAll]
  exact solveAll_frame empty [(l, r)] fun w hw => h w (by simpa [Equation.leaves] using hw)

theorem image_above (τ σ : Subst) (v : TyVar) :
    (τ.above σ).image v = ((τ.get? v).or (σ.get? v)).getD (.var v) := by
  rw [image, get?, above, List.lookup_append, get?, get?]

/-- What the upper bindings leave alone becomes what it becomes by the lower ones. -/
theorem apply_above_of_lower (h : ∀ w ∈ t.leaves, w ∉ τ.domain) :
    (τ.above σ).apply t = σ.apply t := by
  refine TyTerm.bind_congr fun w hw => ?_
  rw [image_above, get?_eq_none_iff.mpr (h w hw), Option.none_or, image]

theorem apply_above_of_upper (h : ∀ w ∈ t.leaves, w ∉ σ.domain) :
    (τ.above σ).apply t = τ.apply t := by
  refine TyTerm.bind_congr fun w hw => ?_
  rw [image_above, get?_eq_none_iff.mpr (h w hw), Option.or_none, image]

/-- An instance of a signature is what a renaming makes of it that takes its variables, one to one,
to new ones.  Two instances that are taken one after another and unified with types over older
variables do not interfere, if the two types have no variable in common: when each can be unified
on its own, the second can be unified on top of the first, and each instance becomes exactly what
it becomes on its own. -/
theorem instances_independent {sig i₁ i₂ : Ty} {s s₁ s₂ : Supply}
    (h₁ : sig.instantiate s = (i₁, s₁)) (h₂ : sig.instantiate s₁ = (i₂, s₂)) :
    (i₁.alphaEq sig = true ∧ i₁ = (freshRenaming sig s).1.apply sig ∧
      ∃ f : TyVar → TyVar, i₁ = sig.map f ∧
        (∀ v ∈ sig.leaves, s.next ≤ f v ∧ f v < s₁.next) ∧
        ∀ v ∈ sig.leaves, ∀ w ∈ sig.leaves, f v = f w → v = w) ∧
    ∀ u v : Ty, (∀ w ∈ u.leaves, w < s.next) → (∀ w ∈ v.leaves, w < s.next) →
      (∀ w ∈ u.leaves, w ∉ v.leaves) →
      ∀ σ₁ σ₂, BlockGraph.unify i₁ u = .ok σ₁ → BlockGraph.unify i₂ v = .ok σ₂ →
        ∃ σ, σ₁.unify i₂ v = .ok σ ∧ σ.apply i₁ = σ₁.apply i₁ ∧ σ.apply i₂ = σ₂.apply i₂ := by
  obtain ⟨f, hf, hrange, hinj⟩ := sig.instantiate_spec s
  obtain ⟨g, hg, hrange', -⟩ := sig.instantiate_spec s₁
  obtain ⟨rfl, rfl⟩ := Prod.mk.inj (h₁.symm.trans hf)
  obtain ⟨rfl, rfl⟩ := Prod.mk.inj (h₂.symm.trans hg)
  refine ⟨⟨?_, ?_, f, rfl, hrange, hinj⟩, fun u v hu hv huv σ₁ σ₂ hσ₁ hσ₂ => ?_⟩
  · exact TyTerm.alphaEq_iff.mpr (TyTerm.RenamesTo.symm ⟨f, hinj, rfl⟩)
  · rw [freshRenaming_apply, h₁]
  -- The old variables come first, then those of the first instance, then those of the second.
  have hfirst : ∀ w ∈ (sig.map f).leaves, s.next ≤ w ∧ w < (s.skip sig.vars.length).next := by
    intro w hw
    obtain ⟨x, hx, rfl⟩ := TyTerm.mem_leaves_map_iff.mp hw
    exact hrange x hx
  have hsecond : ∀ w ∈ (sig.map g).leaves, (s.skip sig.vars.length).next ≤ w := by
    intro w hw
    obtain ⟨x, hx, rfl⟩ := TyTerm.mem_leaves_map_iff.mp hw
    exact (hrange' x hx).1
  have hapart : ∀ w ∈ (sig.map f).leaves ++ u.leaves, w ∉ (sig.map g).leaves ++ v.leaves := by
    intro w hw hmem
    rw [List.mem_append] at hw hmem
    rcases hw with hw | hw <;> rcases hmem with hmem | hmem
    · exact absurd (hsecond w hmem) (Nat.not_le.mpr (hfirst w hw).2)
    · exact absurd (hfirst w hw).1 (Nat.not_le.mpr (hv w hmem))
    · have hnew : s.next ≤ w := Nat.le_trans (Nat.le_add_right _ _) (hsecond w hmem)
      exact absurd hnew (Nat.not_le.mpr (hu w hw))
    · exact huv w hw hmem
  have hlower : ∀ w ∈ σ₁.mentioned, w ∉ (sig.map g).leaves ++ v.leaves := fun w hw =>
    hapart w (mentioned_unify hσ₁ hw)
  have hupper : ∀ w ∈ (sig.map f).leaves ++ u.leaves, w ∉ σ₂.mentioned := fun w hw hmem =>
    hapart w hw (mentioned_unify hσ₂ hmem)
  refine ⟨σ₂.above σ₁, ?_, ?_, ?_⟩
  · rw [unify_frame fun w hw hmem => hlower w hmem hw, hσ₂, Except.map]
  · exact apply_above_of_lower fun w hw hmem =>
      hupper w (List.mem_append_left _ hw) (List.mem_append_left _ hmem)
  · exact apply_above_of_upper fun w hw hmem =>
      hlower w (List.mem_append_left _ hmem) (List.mem_append_left _ hw)

/-- The signature is `0 -> List 0`.  Its first instance is used on `Number -> 1`, and the second on
`2 -> List Text`. -/
theorem instances_independent_lists :
    ∃ σ₁ σ₂ σ : Subst,
      BlockGraph.unify (.fn (.var 3) (.lit "List" [.var 3])) (.fn (.lit "Number" []) (.var 1)) =
        .ok σ₁ ∧
      BlockGraph.unify (.fn (.var 4) (.lit "List" [.var 4]))
        (.fn (.var 2) (.lit "List" [.lit "Text" []])) = .ok σ₂ ∧
      σ₁.unify (.fn (.var 4) (.lit "List" [.var 4])) (.fn (.var 2) (.lit "List" [.lit "Text" []])) =
        .ok σ ∧
      σ.apply (.fn (.var 3) (.lit "List" [.var 3])) =
        .fn (.lit "Number" []) (.lit "List" [.lit "Number" []]) ∧
      σ.apply (.fn (.var 4) (.lit "List" [.var 4])) =
        .fn (.lit "Text" []) (.lit "List" [.lit "Text" []]) := by
  let σ₁ : Subst := ⟨[(1, .lit "List" [.lit "Number" []]), (3, .lit "Number" [])]⟩
  let σ₂ : Subst := ⟨[(2, .lit "Text" []), (4, .lit "Text" [])]⟩
  have hσ₁ : BlockGraph.unify (.fn (.var 3) (.lit "List" [.var 3]))
      (.fn (.lit "Number" []) (.var 1)) = .ok σ₁ := by
    simp [σ₁, unify_eq_solveAll, solveAll_cons, solveAll, compareHeads, TyTerm.occurs, insert,
      Equation.bindAll, replacing, empty]
  have hσ₂ : BlockGraph.unify (.fn (.var 4) (.lit "List" [.var 4]))
      (.fn (.var 2) (.lit "List" [.lit "Text" []])) = .ok σ₂ := by
    simp [σ₂, unify_eq_solveAll, solveAll_cons, solveAll, compareHeads, TyTerm.occurs, insert,
      Equation.bindAll, replacing, empty]
  obtain ⟨_, hindependent⟩ := @instances_independent (.fn (.var 0) (.lit "List" [.var 0])) _ _
    ⟨3⟩ ⟨4⟩ ⟨5⟩ rfl rfl
  obtain ⟨σ, hσ, hfirst, hsecond⟩ := hindependent _ _ (by simp) (by simp) (by simp) σ₁ σ₂ hσ₁ hσ₂
  exact ⟨σ₁, σ₂, σ, hσ₁, hσ₂, hσ, hfirst, hsecond⟩

end Subst
end BlockGraph
