import BlockGraph.Error

/-!
Comparing two types at their heads.

Solving an equation between types starts by looking at the two outermost constructors.  They
either involve a variable, or split the equation into equations between parts, or clash.  The
module also holds the measures by which solving a list of equations ends: the distinct variables
of the equations, or the classes that those variables fall into, and the total size.
-/

namespace BlockGraph

/-- A type on the left, to be made equal to a type on the right. -/
abbrev Equation := Ty × Ty

/-- What the heads of two types say about making the types equal. -/
inductive Comparison where
  /-- Two variables meet. -/
  | variables (v w : TyVar)
  /-- A variable meets a type that is not a variable. -/
  | variable (v : TyVar) (t : Ty)
  /-- The types are equal exactly if these parts are, from left to right. -/
  | parts (equations : List Equation)
  /-- No replacement of variables makes the types equal. -/
  | clash (kind : Mismatch)

def compareHeads : Ty → Ty → Comparison
  | .var v, .var w => .variables v w
  | .var v, .lit name args => .variable v (.lit name args)
  | .var v, .fn domain codomain => .variable v (.fn domain codomain)
  | .lit name args, .var v => .variable v (.lit name args)
  | .fn domain codomain, .var v => .variable v (.fn domain codomain)
  | .lit name args, .lit name' args' =>
    if name ≠ name' then .clash .name
    else if args.length ≠ args'.length then .clash .arity
    else .parts (args.zip args')
  | .fn domain codomain, .fn domain' codomain' =>
    .parts [(domain, domain'), (codomain, codomain')]
  | .lit _ _, .fn _ _ => .clash .arity
  | .fn _ _, .lit _ _ => .clash .arity

namespace Equation

def leaves (equations : List Equation) : List TyVar :=
  equations.flatMap fun e => e.1.leaves ++ e.2.leaves

def size : List Equation → Nat
  | [] => 0
  | e :: rest => e.1.size + e.2.size + size rest

/-- Replaces the variables on both sides of every equation. -/
def bindAll (f : TyVar → Ty) (equations : List Equation) : List Equation :=
  equations.map fun e => (e.1.bind f, e.2.bind f)

@[simp]
theorem leaves_cons (e : Equation) (rest : List Equation) :
    leaves (e :: rest) = e.1.leaves ++ e.2.leaves ++ leaves rest := by
  simp [leaves]

@[simp]
theorem leaves_append (es rest : List Equation) :
    leaves (es ++ rest) = leaves es ++ leaves rest := by
  simp [leaves]

@[simp]
theorem size_cons (e : Equation) (rest : List Equation) :
    size (e :: rest) = e.1.size + e.2.size + size rest := rfl

@[simp]
theorem size_append (es rest : List Equation) : size (es ++ rest) = size es + size rest := by
  induction es with
  | nil => simp [size]
  | cons e es ih => simp only [List.cons_append, size_cons, ih]; omega

end Equation

/-! ## What a comparison tells about the two types -/

theorem TyTerm.size_pos {ν : Type} (t : TyTerm ν) : 0 < t.size := by
  cases t <;> simp [TyTerm.size]

private theorem leaves_zip_subset {as bs : List Ty} {v : TyVar}
    (h : v ∈ Equation.leaves (as.zip bs)) : v ∈ TyTerm.leavesAll as ++ TyTerm.leavesAll bs := by
  simp only [Equation.leaves, List.mem_flatMap, List.mem_append] at h
  obtain ⟨⟨a, b⟩, he, hv⟩ := h
  have hab := List.of_mem_zip he
  simp only [TyTerm.leavesAll_eq_flatMap, List.mem_append, List.mem_flatMap]
  cases hv with
  | inl hv => exact .inl ⟨a, hab.1, hv⟩
  | inr hv => exact .inr ⟨b, hab.2, hv⟩

private theorem size_zip_le (as bs : List Ty) :
    Equation.size (as.zip bs) ≤ TyTerm.sizeAll as + TyTerm.sizeAll bs := by
  induction as generalizing bs with
  | nil => simp [Equation.size]
  | cons a as ih =>
    cases bs with
    | nil => simp [Equation.size]
    | cons b bs =>
      have := ih bs
      simp only [List.zip_cons_cons, Equation.size_cons, TyTerm.sizeAll]
      omega

theorem compareHeads_variables {l r : Ty} {v w : TyVar} (h : compareHeads l r = .variables v w) :
    l = .var v ∧ r = .var w := by
  revert h
  fun_cases compareHeads l r <;> simp_all

/-- The variable of such an equation stands on one side, and the type on the other. -/
theorem compareHeads_variable {l r : Ty} {v : TyVar} {t : Ty}
    (h : compareHeads l r = .variable v t) :
    (l = .var v ∧ r = t) ∨ (l = t ∧ r = .var v) := by
  revert h
  fun_cases compareHeads l r <;> simp_all

theorem compareHeads_parts_leaves {l r : Ty} {es : List Equation}
    (h : compareHeads l r = .parts es) {v : TyVar} (hv : v ∈ Equation.leaves es) :
    v ∈ l.leaves ++ r.leaves := by
  revert h
  fun_cases compareHeads l r <;> try simp
  case case8 name args name' args' _ _ =>
    rintro rfl
    simpa [TyTerm.leaves] using leaves_zip_subset hv
  case case9 domain codomain domain' codomain' =>
    rintro rfl
    simp only [Equation.leaves, List.flatMap_cons, List.flatMap_nil, List.mem_append] at hv
    simp only [TyTerm.leaves, List.mem_append]
    grind

/-- Taking the first equation apart brings in no variables. -/
theorem leaves_of_parts {l r : Ty} {es rest : List Equation} (h : compareHeads l r = .parts es)
    {v : TyVar} (hv : v ∈ Equation.leaves (es ++ rest)) : v ∈ Equation.leaves ((l, r) :: rest) := by
  rw [Equation.leaves_append, List.mem_append] at hv
  rw [Equation.leaves_cons, List.mem_append]
  exact hv.imp_left (compareHeads_parts_leaves h)

/-- The variable and the type that meet in the first equation have their variables from it. -/
theorem leaves_of_variable {l r t : Ty} {v w : TyVar} {rest : List Equation}
    (h : compareHeads l r = .variable v t) (hw : w = v ∨ w ∈ t.leaves) :
    w ∈ Equation.leaves ((l, r) :: rest) := by
  rw [Equation.leaves_cons]
  refine List.mem_append_left _ ?_
  rcases compareHeads_variable h with ⟨rfl, rfl⟩ | ⟨rfl, rfl⟩
  · exact List.mem_append.mpr (hw.imp_left List.mem_singleton.mpr)
  · exact List.mem_append.mpr (hw.imp_left List.mem_singleton.mpr).symm

theorem compareHeads_parts_size {l r : Ty} {es : List Equation}
    (h : compareHeads l r = .parts es) : Equation.size es < l.size + r.size := by
  revert h
  fun_cases compareHeads l r <;> try simp
  case case8 name args name' args' _ _ =>
    rintro rfl
    have := size_zip_le args args'
    simp only [TyTerm.size]
    omega
  case case9 domain codomain domain' codomain' =>
    rintro rfl
    simp only [Equation.size, TyTerm.size]
    omega

/-! ## Counting distinct elements -/

theorem length_le_of_nodup {α : Type} [DecidableEq α] {l l' : List α} (hl : l.Nodup)
    (hl' : l'.Nodup) (hs : ∀ a ∈ l, a ∈ l') : l.length ≤ l'.length := by
  have hkept : (l'.filter (· ∈ l)).Nodup := hl'.filter _
  have hperm : l.Perm (l'.filter (· ∈ l)) := List.perm_iff_count.mpr fun a => by
    rw [hl.count, hkept.count]
    simp only [List.mem_filter, decide_eq_true_eq, and_iff_right_of_imp (hs a)]
  exact hperm.length_eq ▸ List.length_filter_le _ l'

theorem firsts_length_le {α : Type} [DecidableEq α] {l l' : List α} (hs : ∀ a ∈ l, a ∈ l') :
    (firsts l).length ≤ (firsts l').length :=
  length_le_of_nodup (firsts_nodup l) (firsts_nodup l') fun a ha =>
    mem_firsts.mpr (hs a (mem_firsts.mp ha))

/-- A list that misses an element of another list, and has no others, has fewer distinct ones. -/
theorem firsts_length_lt {α : Type} [DecidableEq α] {l l' : List α} {a : α} (ha : a ∈ l')
    (hs : ∀ b ∈ l, b ∈ l' ∧ b ≠ a) : (firsts l).length < (firsts l').length := by
  have hnot : a ∉ firsts l := fun h => (hs a (mem_firsts.mp h)).2 rfl
  have hnodup : (a :: firsts l).Nodup := List.nodup_cons.mpr ⟨hnot, firsts_nodup l⟩
  have hle : (a :: firsts l).length ≤ (firsts l').length := by
    refine length_le_of_nodup hnodup (firsts_nodup l') fun b hb => mem_firsts.mpr ?_
    cases List.mem_cons.mp hb with
    | inl h => exact h ▸ ha
    | inr h => exact (hs b (mem_firsts.mp h)).1
  simp only [List.length_cons] at hle
  omega

/-! ## Variables after a replacement -/

mutual

theorem TyTerm.mem_leaves_bind {ν μ : Type} {f : ν → TyTerm μ} {w : μ} :
    (t : TyTerm ν) → w ∈ (t.bind f).leaves → ∃ v ∈ t.leaves, w ∈ (f v).leaves
  | .var v, h => ⟨v, by simp [leaves], by simpa [bind] using h⟩
  | .lit _ args, h => mem_leavesAll_bindAll args (by simpa [bind, leaves] using h)
  | .fn domain codomain, h => by
    simp only [bind, leaves, List.mem_append] at h
    cases h with
    | inl h =>
      obtain ⟨v, hv, hw⟩ := mem_leaves_bind domain h
      exact ⟨v, by simp [leaves, hv], hw⟩
    | inr h =>
      obtain ⟨v, hv, hw⟩ := mem_leaves_bind codomain h
      exact ⟨v, by simp [leaves, hv], hw⟩

theorem TyTerm.mem_leavesAll_bindAll {ν μ : Type} {f : ν → TyTerm μ} {w : μ} :
    (ts : List (TyTerm ν)) → w ∈ leavesAll (bindAll f ts) → ∃ v ∈ leavesAll ts, w ∈ (f v).leaves
  | [], h => by simp [bindAll, leavesAll] at h
  | t :: rest, h => by
    simp only [bindAll, leavesAll, List.mem_append] at h
    cases h with
    | inl h =>
      obtain ⟨v, hv, hw⟩ := mem_leaves_bind t h
      exact ⟨v, by simp [leavesAll, hv], hw⟩
    | inr h =>
      obtain ⟨v, hv, hw⟩ := mem_leavesAll_bindAll rest h
      exact ⟨v, by simp [leavesAll, hv], hw⟩

end

theorem Equation.mem_leaves_bindAll {f : TyVar → Ty} {w : TyVar} {es : List Equation}
    (h : w ∈ leaves (bindAll f es)) : ∃ v ∈ leaves es, w ∈ (f v).leaves := by
  simp only [leaves, bindAll, List.mem_flatMap, List.mem_map, List.mem_append] at h
  obtain ⟨_, ⟨e, he, rfl⟩, hw⟩ := h
  have hmem : ∀ v, v ∈ e.1.leaves ++ e.2.leaves → v ∈ leaves es := fun v hv =>
    List.mem_flatMap.mpr ⟨e, he, hv⟩
  cases hw with
  | inl hw =>
    obtain ⟨v, hv, hw⟩ := TyTerm.mem_leaves_bind e.1 hw
    exact ⟨v, hmem v (by simp [hv]), hw⟩
  | inr hw =>
    obtain ⟨v, hv, hw⟩ := TyTerm.mem_leaves_bind e.2 hw
    exact ⟨v, hmem v (by simp [hv]), hw⟩

end BlockGraph
