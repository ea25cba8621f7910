import BlockGraph.Proofs.Unification.Dereferencing
import BlockGraph.Proofs.Unification.Families

/-!
# Merging substitutions

A composition goes through the bindings of one substitution and adds each of them to
the other, on top of what the bindings before it have led to.  The bindings of a
substitution have no order, and the two substitutions may bind the same variables, so
the steps on the way depend on the order.  What they lead to does not: the maps that
satisfy the result are those that satisfy all bindings of both (`bindAll_resolved`), and
two normal substitutions that the same maps satisfy differ by a renaming only
(`Normal.exists_renaming`).
-/

namespace BlockGraph
namespace Subst

variable {σ τ ρ ρ' : Subst} {v : TyVar} {t : Ty} {bindings : List (TyVar × Ty)}

/-! ## Bindings in any order -/

/-- The map satisfies every binding of a list. -/
def Satisfies (f : TyVar → Ty) (bindings : List (TyVar × Ty)) : Prop :=
  ∀ b ∈ bindings, f b.1 = b.2.bind f

theorem satisfies_perm {bindings' : List (TyVar × Ty)} (h : bindings'.Perm bindings)
    (f : TyVar → Ty) : Satisfies f bindings' ↔ Satisfies f bindings :=
  forall_congr' fun _ => by rw [h.mem_iff]

theorem Normal.get?_eq_some_iff (h : σ.Normal) : σ.get? v = some t ↔ (v, t) ∈ σ.bindings := by
  refine ⟨mem_bindings_of_get?, fun hmem => ?_⟩
  cases hget : σ.get? v with
  | none => exact absurd (List.mem_map_of_mem hmem) (get?_eq_none_iff.mp hget)
  | some u =>
    have heq := List.inj_on_of_nodup_map h.nodup (mem_bindings_of_get? hget) hmem rfl
    rw [(Prod.mk.inj heq).2]

/-- A map reads through a normal substitution exactly if it satisfies its bindings. -/
theorem Normal.absorbs_iff (h : σ.Normal) {f : TyVar → Ty} :
    Absorbs f σ.image ↔ Satisfies f σ.bindings := by
  rw [absorbs_image_iff]
  constructor
  · exact fun hf b hb => hf b.1 b.2 (h.get?_eq_some_iff.mpr hb)
  · exact fun hf v u hu => hf (v, u) (mem_bindings_of_get? hu)

theorem Normal.dereferenced (h : σ.Normal) : σ.Dereferenced :=
  fun v => h.apply_apply (.var v)

theorem Normal.of_perm (h : σ.Normal) (hperm : bindings.Perm σ.bindings) :
    Normal ⟨bindings⟩ := by
  have hdomain : (domain ⟨bindings⟩).Perm σ.domain := hperm.map _
  refine ⟨hdomain.nodup_iff.mpr h.nodup, fun b hb w hw => ?_⟩
  rw [hdomain.mem_iff]
  exact h.range b (hperm.mem_iff.mp hb) w hw

/-- The substitutions that calls lead to, where the bindings of a substitution stand in any order. A
renaming to fresh variables binds the variables of a type for which the supply is fresh. -/
inductive Obtained : Subst → Prop
  | empty : Obtained .empty
  | singleton {v : TyVar} {t : Ty} {σ : Subst} (h : Subst.singleton v t = .ok σ) : Obtained σ
  | bind {σ σ' : Subst} {v : TyVar} {t : Ty} (hσ : Obtained σ) (h : σ.bind v t = .ok σ') :
    Obtained σ'
  | unify {σ σ' : Subst} {l r : Ty} (hσ : Obtained σ) (h : σ.unify l r = .ok σ') : Obtained σ'
  | compose {σ τ ρ : Subst} (hσ : Obtained σ) (hτ : Obtained τ) (h : σ.compose τ = .ok ρ) :
    Obtained ρ
  | freshRenaming {t : Ty} {s : Supply} (h : ∀ v ∈ t.leaves, v < s.next) :
    Obtained (Subst.freshRenaming t s).1
  | reordered {σ : Subst} {bindings : List (TyVar × Ty)} (hσ : Obtained σ)
      (h : bindings.Perm σ.bindings) : Obtained ⟨bindings⟩

theorem freshRenaming_normal {s : Supply} (h : ∀ v ∈ t.leaves, v < s.next) :
    (freshRenaming t s).1.Normal := by
  have hdomain : (freshRenaming t s).1.domain = t.vars := by
    simp [domain, freshRenaming, Function.comp_def]
  refine ⟨hdomain ▸ firsts_nodup _, fun b hb w hw => ?_⟩
  obtain ⟨v, hv, rfl⟩ := List.mem_map.mp hb
  rw [List.mem_singleton.mp hw, hdomain, TyTerm.mem_vars]
  exact fun hmem => Nat.not_lt.mpr (s.numbered_range hv).1 (h _ hmem)

theorem Obtained.normal (h : σ.Obtained) : σ.Normal := by
  induction h with
  | empty => exact Normal.empty
  | singleton h => exact Normal.empty.unify h
  | bind _ h ih => exact ih.unify h
  | unify _ h ih => exact ih.unify h
  | compose _ _ h ih => exact ih.bindAll h
  | freshRenaming h => exact freshRenaming_normal h
  | reordered _ h ih => exact ih.of_perm h

/-! ## What a merge satisfies -/

def equations (bindings : List (TyVar × Ty)) : List Equation :=
  bindings.map fun b => (.var b.1, b.2)

theorem solves_equations {f : TyVar → Ty} : Solves f (equations bindings) ↔ Satisfies f bindings :=
  List.forall_mem_map

/-- Adding bindings one after another adds just these, or fails if that is impossible. -/
theorem bindAll_resolved (hσ : σ.Dereferenced) (bindings : List (TyVar × Ty)) :
    Resolved σ.image (equations bindings) ((σ.bindAll bindings).map image) := by
  induction bindings generalizing σ with
  | nil => exact ⟨hσ, fun f => ⟨fun hf => ⟨hf, solves_nil f⟩, And.left⟩⟩
  | cons b rest ih =>
    have hfirst := unify_resolved hσ (.var b.1) b.2
    rw [bindAll, bind]
    cases hb : σ.unify (.var b.1) b.2 with
    | ok σ' =>
      rw [hb] at hfirst
      refine (ih hfirst.1).of_step fun f => ?_
      rw [hfirst.2 f, equations, equations, List.map_cons, solves_cons, solves_cons,
        and_iff_left (solves_nil f), and_assoc]
    | error e =>
      rw [hb] at hfirst
      rintro f ⟨hf, hrest⟩
      exact hfirst f ⟨hf, solves_cons.mpr ⟨(solves_cons.mp hrest).1, solves_nil f⟩⟩

/-- The maps that satisfy a merge are those that satisfy all bindings it was made of. -/
theorem Normal.bindAll_satisfies (hσ : σ.Normal) (h : σ.bindAll bindings = .ok ρ)
    (f : TyVar → Ty) :
    Absorbs f ρ.image ↔ Satisfies f σ.bindings ∧ Satisfies f bindings := by
  have hresolved := bindAll_resolved hσ.dereferenced bindings
  rw [h] at hresolved
  rw [hresolved.2 f, solves_equations, hσ.absorbs_iff]

theorem Normal.bindAll_ok_iff (hσ : σ.Normal) :
    (∃ ρ, σ.bindAll bindings = .ok ρ) ↔ ∃ f, Satisfies f σ.bindings ∧ Satisfies f bindings := by
  constructor
  · rintro ⟨ρ, hρ⟩
    exact ⟨ρ.image, (hσ.bindAll_satisfies hρ _).mp (hσ.bindAll hρ).dereferenced⟩
  · rintro ⟨f, hf, hbindings⟩
    have hresolved := bindAll_resolved hσ.dereferenced bindings
    cases h : σ.bindAll bindings with
    | ok ρ => exact ⟨ρ, rfl⟩
    | error e =>
      rw [h] at hresolved
      exact absurd ⟨hσ.absorbs_iff.mpr hf, solves_equations.mpr hbindings⟩ (hresolved f)

/-! ## Merges of the same bindings -/

/-- The variables that a substitution has to do with. -/
def mentioned (σ : Subst) : List TyVar :=
  σ.domain ++ σ.bindings.flatMap fun b => b.2.leaves

theorem mem_mentioned {w : TyVar} (hv : v ∉ σ.mentioned) (hw : v ∈ (σ.image w).leaves) :
    w = v := by
  rw [mentioned, List.mem_append, not_or] at hv
  cases hget : σ.get? w with
  | none =>
    rw [image, hget, Option.getD_none, TyTerm.leaves_var, List.mem_singleton] at hw
    exact hw.symm
  | some u =>
    rw [image, hget, Option.getD_some] at hw
    exact absurd (List.mem_flatMap.mpr ⟨(w, u), mem_bindings_of_get? hget, hw⟩) hv.2

/-- Normal substitutions that the same maps satisfy differ by one renaming, for all types. -/
theorem Normal.exists_renaming (hρ : ρ.Normal) (hρ' : ρ'.Normal)
    (h : ∀ f, Absorbs f ρ.image ↔ Absorbs f ρ'.image) :
    ∃ π : Equiv.Perm TyVar, ∀ t : Ty, ρ'.apply t = (ρ.apply t).map π := by
  have hinstance : ∀ v ∈ ρ.mentioned ++ ρ'.mentioned, ρ'.image v = (ρ.image v).bind ρ'.image :=
    fun v _ => ((h _).mpr hρ'.dereferenced v).symm
  have hinstance' : ∀ v ∈ ρ.mentioned ++ ρ'.mentioned, ρ.image v = (ρ'.image v).bind ρ.image :=
    fun v _ => ((h _).mp hρ.dereferenced v).symm
  obtain ⟨π, hπ, hfixed⟩ := exists_perm_of_instances hinstance hinstance'
  refine ⟨π, fun t => ?_⟩
  rw [Subst.apply, Subst.apply, TyTerm.map_bind]
  refine TyTerm.bind_congr fun v _ => ?_
  by_cases hv : v ∈ ρ.mentioned ++ ρ'.mentioned
  · exact hπ v hv
  -- The two substitutions and the renaming leave all other variables alone.
  have hother := hv
  rw [List.mem_append, not_or] at hother
  have hunbound : ∀ σ : Subst, v ∉ σ.mentioned → σ.image v = .var v := fun σ hσ =>
    image_of_unbound fun hmem => hσ (List.mem_append_left _ hmem)
  rw [hunbound ρ hother.1, hunbound ρ' hother.2, TyTerm.map_var, hfixed v fun w hw => ?_]
  exact ⟨fun hmem => hv (mem_mentioned hother.1 hmem ▸ hw),
    fun hmem => hv (mem_mentioned hother.2 hmem ▸ hw)⟩

/-- Both merges fail, or both succeed and what they give differs by one renaming for all types. -/
def SameMerge : Except TypeError Subst → Except TypeError Subst → Prop
  | .ok ρ, .ok ρ' => ∃ π : Equiv.Perm TyVar, ∀ t : Ty, ρ'.apply t = (ρ.apply t).map π
  | .error _, .error _ => True
  | _, _ => False

theorem Normal.bindAll_sameMerge (hσ : σ.Normal) (hτ : τ.Normal)
    {bindings' : List (TyVar × Ty)}
    (h : ∀ f, Satisfies f σ.bindings ∧ Satisfies f bindings ↔
      Satisfies f τ.bindings ∧ Satisfies f bindings') :
    SameMerge (σ.bindAll bindings) (τ.bindAll bindings') := by
  have hok : (∃ ρ, σ.bindAll bindings = .ok ρ) ↔ ∃ ρ, τ.bindAll bindings' = .ok ρ := by
    rw [hσ.bindAll_ok_iff, hτ.bindAll_ok_iff, exists_congr h]
  cases hleft : σ.bindAll bindings with
  | ok ρ =>
    obtain ⟨ρ', hright⟩ := hok.mp ⟨ρ, hleft⟩
    rw [hright]
    refine (hσ.bindAll hleft).exists_renaming (hτ.bindAll hright) fun f => ?_
    rw [hσ.bindAll_satisfies hleft, hτ.bindAll_satisfies hright, h]
  | error e =>
    cases hright : τ.bindAll bindings' with
    | ok ρ =>
      obtain ⟨ρ', hρ'⟩ := hok.mpr ⟨ρ, hright⟩
      rw [hleft] at hρ'
      cases hρ'
    | error e' => exact trivial

/-- A composition succeeds exactly if some map satisfies the bindings of both substitutions.
Whether it succeeds, and up to a renaming what it gives, depends neither on the order in which
bindings are gone through nor on which of the two substitutions comes first.  What it gives reads
through both, and every map that reads through both reads through it. -/
theorem compose_merges (hσ : σ.Obtained) (hτ : τ.Obtained) :
    ((∃ ρ, σ.compose τ = .ok ρ) ↔
      ∃ f : TyVar → Ty, ∀ v u, σ.get? v = some u ∨ τ.get? v = some u → f v = u.bind f) ∧
    (∀ order : List (TyVar × Ty), order.Perm τ.bindings →
      SameMerge (σ.compose τ) (σ.compose ⟨order⟩)) ∧
    (∀ order : List (TyVar × Ty), order.Perm σ.bindings →
      SameMerge (σ.compose τ) (τ.compose ⟨order⟩)) ∧
    ∀ ρ, σ.compose τ = .ok ρ →
      (∀ t, ρ.apply (σ.apply t) = ρ.apply t ∧ ρ.apply (τ.apply t) = ρ.apply t) ∧
      ∀ f : TyVar → Ty,
        (∀ t : Ty, (σ.apply t).bind f = t.bind f ∧ (τ.apply t).bind f = t.bind f) →
          ∀ t : Ty, (ρ.apply t).bind f = t.bind f := by
  have hnσ := hσ.normal
  have hnτ := hτ.normal
  refine ⟨?_, fun order horder => ?_, fun order horder => ?_, fun ρ hρ => ?_⟩
  · rw [compose, hnσ.bindAll_ok_iff]
    refine exists_congr fun f => ?_
    rw [← hnσ.absorbs_iff, ← hnτ.absorbs_iff, absorbs_image_iff, absorbs_image_iff]
    constructor
    · rintro ⟨hf, hf'⟩ v u (hu | hu)
      · exact hf v u hu
      · exact hf' v u hu
    · exact fun hf => ⟨fun v u hu => hf v u (.inl hu), fun v u hu => hf v u (.inr hu)⟩
  · exact hnσ.bindAll_sameMerge hnσ fun f => by rw [satisfies_perm horder]
  · exact hnσ.bindAll_sameMerge hnτ fun f => by rw [satisfies_perm horder, and_comm]
  · have hmaps := hnσ.bindAll_satisfies hρ
    simp only [← hnσ.absorbs_iff, ← hnτ.absorbs_iff] at hmaps
    obtain ⟨hreads, hreads'⟩ := (hmaps ρ.image).mp (hnσ.bindAll hρ).dereferenced
    refine ⟨fun t => ⟨hreads.bind t, hreads'.bind t⟩, fun f hf t => ?_⟩
    refine ((hmaps f).mpr ⟨fun v => ?_, fun v => ?_⟩).bind t
    · exact (hf (.var v)).1
    · exact (hf (.var v)).2

/-- Both substitutions bind `0`, and the second one also binds a variable of what the first one
binds it to. -/
theorem compose_merges_pairs :
    ∃ σ τ ρ : Subst, σ.Obtained ∧ τ.Obtained ∧
      σ.bindings = [(0, .lit "Pair" [.var 1, .var 2])] ∧
      τ.bindings = [(0, .lit "Pair" [.lit "List" [.var 3], .var 4]), (2, .lit "Bool" [])] ∧
      σ.compose τ = .ok ρ ∧
      ρ.apply (.var 0) = .lit "Pair" [.lit "List" [.var 3], .lit "Bool" []] ∧
      ρ.apply (σ.apply (.var 0)) = ρ.apply (.var 0) ∧
      SameMerge (σ.compose τ) (σ.compose ⟨τ.bindings.reverse⟩) ∧
      SameMerge (σ.compose τ) (τ.compose σ) := by
  let σ : Subst := ⟨[(0, .lit "Pair" [.var 1, .var 2])]⟩
  let τ : Subst := ⟨[(0, .lit "Pair" [.lit "List" [.var 3], .var 4]), (2, .lit "Bool" [])]⟩
  let ρ : Subst := ⟨[(4, .lit "Bool" []), (2, .lit "Bool" []), (1, .lit "List" [.var 3]),
    (0, .lit "Pair" [.lit "List" [.var 3], .lit "Bool" []])]⟩
  have hσ : σ.Obtained := .singleton (v := 0) (t := .lit "Pair" [.var 1, .var 2]) (by
    simp [σ, singleton, Subst.bind, Subst.unify, solveAll_cons, solveAll, compareHeads,
      apply, image,
      get?, TyTerm.occurs, insert, Equation.bindAll, empty])
  have hbool : Subst.Obtained ⟨[(2, .lit "Bool" [])]⟩ :=
    .singleton (v := 2) (t := .lit "Bool" []) (by
      simp [singleton, Subst.bind, Subst.unify, solveAll_cons, solveAll, compareHeads, apply, image,
        get?, TyTerm.occurs, insert, Equation.bindAll, empty])
  have hτ : τ.Obtained :=
    .bind (v := 0) (t := .lit "Pair" [.lit "List" [.var 3], .var 4]) hbool (by
      simp [τ, Subst.bind, Subst.unify, solveAll_cons, solveAll, compareHeads, apply, image, get?,
        List.lookup_cons, TyTerm.occurs, insert, Equation.bindAll])
  have hρ : σ.compose τ = .ok ρ := by
    simp [σ, τ, ρ, compose, bindAll, Subst.bind, Subst.unify, solveAll_cons, solveAll, compareHeads,
      apply, image, get?, List.lookup_cons, TyTerm.occurs, insert, Equation.bindAll, replacing]
  obtain ⟨_, horder, hexchange, hresult⟩ := compose_merges hσ hτ
  exact ⟨σ, τ, ρ, hσ, hτ, rfl, rfl, hρ, rfl, ((hresult ρ hρ).1 _).1,
    horder _ (List.reverse_perm _), hexchange _ (List.Perm.refl _)⟩

end Subst
end BlockGraph
