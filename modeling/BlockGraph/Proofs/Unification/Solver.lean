import BlockGraph.Proofs.Unification.MostGeneral
import BlockGraph.Solver.Basic

/-!
# Solving by classes gives most general solutions

The values of a solver are kept with the newest first, and a value never mentions
a class that had a value before it was added.  So following values leads from
older to newer ones and ends after as many rounds as there are values: this is
`Layered`, and with it `Solver.expand` leaves no variable that has a value.

What a solver says about a variable is its `image`.  Merging two classes and
giving a value to a class both extend the image by one binding of a
representative (`image_merge`, `image_assign`), so that the step lemma for
substitutions applies, and `constrain` adds exactly the equation it is given or
fails if that is impossible.
-/

namespace BlockGraph
namespace Solver

variable {k : Nat} {l r t u : Ty} {s : Solver} {v w : TyVar}

/-- The current solution for a variable. -/
def image (s : Solver) (v : TyVar) : Ty :=
  s.zonk (.var v)

/-- Values lead only to newer values, and belong to representatives. -/
structure Layered (s : Solver) : Prop where
  rep_key : ∀ b ∈ s.values, s.rep b.1 = b.1
  newer : ∀ {i j : Nat} {b d : TyVar × Ty}, s.values[i]? = some b → s.values[j]? = some d →
    ∀ w ∈ b.2.leaves, s.rep w = d.1 → j < i

theorem rep_rep (s : Solver) (v : TyVar) : s.rep (s.rep v) = s.rep v :=
  s.classes.rep_rep v

theorem value?_rep (s : Solver) (v : TyVar) : s.value? (s.rep v) = s.value? v := by
  rw [value?, rep_rep, value?]

theorem value?_congr (h : s.rep v = s.rep w) : s.value? v = s.value? w := by
  rw [value?, value?, h]

theorem empty_layered : empty.Layered :=
  ⟨fun _ h => absurd h List.not_mem_nil, fun h => by simp [empty] at h⟩

/-! ## Expansion -/

private theorem getElem?_of_lookup {l : List (TyVar × Ty)} (h : l.lookup v = some t) :
    ∃ i : Nat, l[i]? = some (v, t) := by
  induction l with
  | nil => simp at h
  | cons b rest ih =>
    rw [List.lookup_cons] at h
    by_cases hv : v = b.1
    · refine ⟨0, ?_⟩
      have ht : b.2 = t := by simpa [hv] using h
      rw [List.getElem?_cons_zero, hv, ← ht]
    · rw [beq_false_of_ne hv] at h
      obtain ⟨i, hi⟩ := ih h
      exact ⟨i + 1, hi⟩

private theorem exists_lookup_of_mem {l : List (TyVar × Ty)} {b : TyVar × Ty} (h : b ∈ l) :
    ∃ t, l.lookup b.1 = some t := by
  induction l with
  | nil => exact absurd h List.not_mem_nil
  | cons d rest ih =>
    rw [List.lookup_cons]
    by_cases hd : b.1 = d.1
    · exact ⟨d.2, by simp [hd]⟩
    · rw [beq_false_of_ne hd]
      rcases List.mem_cons.mp h with rfl | h
      · exact absurd rfl hd
      · exact ih h

theorem rep_ne_key (hv : s.value? v = none) {b : TyVar × Ty} (hb : b ∈ s.values) :
    s.rep v ≠ b.1 := by
  intro h
  obtain ⟨t, ht⟩ := exists_lookup_of_mem hb
  rw [value?, h, ht] at hv
  cases hv

/-- Only the first `k` values matter for the variables of the type. -/
private def Reaches (s : Solver) (k : Nat) (t : Ty) : Prop :=
  ∀ v ∈ t.leaves, ∀ {i : Nat} {b : TyVar × Ty}, s.values[i]? = some b → s.rep v = b.1 → i < k

private theorem Reaches.value (hs : s.Layered) (ht : Reaches s (k + 1) t) (hv : v ∈ t.leaves)
    (hu : s.value? v = some u) : Reaches s k u := by
  obtain ⟨i, hi⟩ := getElem?_of_lookup hu
  have hik : i < k + 1 := ht v hv hi rfl
  intro w hw j b hj hrep
  have := hs.newer hi hj w hw hrep
  omega

private theorem reaches_length (s : Solver) (t : Ty) : Reaches s s.values.length t := by
  intro v _ i b hi _
  exact (List.getElem?_eq_some_iff.mp hi).1

private theorem Reaches.value?_eq_none (ht : Reaches s 0 t) (hv : v ∈ t.leaves) :
    s.value? v = none := by
  cases hu : s.value? v with
  | none => rfl
  | some u =>
    obtain ⟨i, hi⟩ := getElem?_of_lookup hu
    exact absurd (ht v hv hi rfl) (Nat.not_lt_zero i)

theorem expandBy_of_unvalued (ht : ∀ v ∈ t.leaves, s.value? v = none) (k : Nat) :
    s.expandBy k t = t := by
  cases k with
  | zero => rfl
  | succ k =>
    rw [expandBy, TyTerm.bind_eq_self_iff]
    intro v hv
    rw [ht v hv]

private theorem expandBy_succ (hs : s.Layered) (ht : Reaches s k t) :
    s.expandBy (k + 1) t = s.expandBy k t := by
  induction k generalizing t with
  | zero => exact expandBy_of_unvalued (fun v hv => ht.value?_eq_none hv) 1
  | succ k ih =>
    rw [expandBy, expandBy]
    refine TyTerm.bind_congr fun v hv => ?_
    cases hu : s.value? v with
    | none => rfl
    | some u => exact ih (ht.value hs hv hu)

private theorem leaves_expandBy (hs : s.Layered) (ht : Reaches s k t)
    (hw : w ∈ (s.expandBy k t).leaves) : s.value? w = none := by
  induction k generalizing t with
  | zero => exact ht.value?_eq_none hw
  | succ k ih =>
    rw [expandBy] at hw
    obtain ⟨v, hv, hw⟩ := TyTerm.mem_leaves_bind_iff.mp hw
    cases hu : s.value? v with
    | none =>
      rw [hu] at hw
      rwa [List.mem_singleton.mp hw]
    | some u =>
      rw [hu] at hw
      exact ih (ht.value hs hv hu) hw

theorem leaves_expand (hs : s.Layered) (hw : w ∈ (s.expand t).leaves) : s.value? w = none :=
  leaves_expandBy hs (reaches_length s t) hw

/-- More rounds than there are values change nothing. -/
theorem expandBy_eq_expand (hs : s.Layered) (t : Ty) (hk : s.values.length ≤ k) :
    s.expandBy k t = s.expand t := by
  induction hk with
  | refl => rfl
  | step hk ih =>
    rw [expandBy_succ hs, ih]
    intro v hv i b hi hrep
    exact Nat.lt_of_lt_of_le (reaches_length s t v hv hi hrep) hk

theorem expand_eq_bind (hs : s.Layered) (t : Ty) :
    s.expand t = t.bind fun v => s.expand (.var v) := by
  rw [expand, ← expandBy_succ hs (reaches_length s t), expandBy]
  refine TyTerm.bind_congr fun v _ => ?_
  rw [expand, ← expandBy_succ hs (reaches_length s (.var v)), expandBy, TyTerm.bind_var]

theorem expand_var_of_none (hv : s.value? v = none) : s.expand (.var v) = .var v := by
  refine expandBy_of_unvalued (fun w hw => ?_) _
  rwa [List.mem_singleton.mp hw]

theorem expand_var_of_some (hs : s.Layered) (hu : s.value? v = some u) :
    s.expand (.var v) = s.expand u := by
  rw [← expandBy_eq_expand hs (.var v) (Nat.le_succ _), expandBy, TyTerm.bind_var, hu]
  rfl

/-- The value of the class of one variable mentions the class of the other. -/
def Leads (s : Solver) (v w : TyVar) : Prop :=
  ∃ u, s.value? v = some u ∧ ∃ x ∈ u.leaves, s.rep x = s.rep w

/-- From class to class along values there is only a finite way. -/
theorem Layered.wellFounded (hs : s.Layered) : WellFounded fun w v => s.Leads v w := by
  have hlast : ∀ w, s.value? w = none → Acc (fun w v => s.Leads v w) w := by
    refine fun w hw => .intro w fun x hx => ?_
    obtain ⟨u, hu, -⟩ := hx
    rw [hw] at hu
    cases hu
  have hat : ∀ (i : Nat) (v : TyVar) (u : Ty), s.values[i]? = some (s.rep v, u) →
      s.value? v = some u → Acc (fun w v => s.Leads v w) v := by
    intro i
    induction i using Nat.strongRecOn with
    | ind i ih =>
      refine fun v u hi hv => .intro v fun w hw => ?_
      obtain ⟨u', hu', x, hx, hxw⟩ := hw
      cases hv.symm.trans hu'
      cases hw : s.value? w with
      | none => exact hlast w hw
      | some t =>
        obtain ⟨j, hj⟩ := getElem?_of_lookup hw
        exact ih j (hs.newer hi hj x hx hxw) w t hj hw
  refine ⟨fun v => ?_⟩
  cases hv : s.value? v with
  | none => exact hlast v hv
  | some u =>
    obtain ⟨i, hi⟩ := getElem?_of_lookup hv
    exact hat i v u hi hv

/-! ## The image -/

theorem zonk_eq_bind (hs : s.Layered) (t : Ty) : s.zonk t = t.bind s.image := by
  rw [zonk, expand_eq_bind hs, TyTerm.map_bind]
  rfl

theorem image_of_none (hv : s.value? v = none) : s.image v = .var (s.rep v) := by
  rw [image, zonk, expand_var_of_none hv, TyTerm.map_var]

theorem image_rep (hv : s.value? v = none) : s.image (s.rep v) = .var (s.rep v) := by
  rw [image_of_none (by rwa [value?_rep]), rep_rep]

theorem image_idempotent (hs : s.Layered) : Absorbs s.image s.image := by
  intro v
  rw [TyTerm.bind_eq_self_iff]
  intro w hw
  obtain ⟨y, hy, rfl⟩ := TyTerm.mem_leaves_map_iff.mp hw
  exact image_rep (leaves_expand hs hy)

section Reading

variable {s : Solver} {f : TyVar → Ty}

theorem rep_of_absorbs (hf : Absorbs f s.image) (hv : s.value? v = none) : f (s.rep v) = f v := by
  rw [← hf v, image_of_none hv, TyTerm.bind_var]

theorem map_rep_bind_of_absorbs (hf : Absorbs f s.image) (ht : ∀ v ∈ t.leaves, s.value? v = none) :
    (t.map s.rep).bind f = t.bind f := by
  rw [TyTerm.bind_map]
  exact TyTerm.bind_congr fun v hv => rep_of_absorbs hf (ht v hv)

theorem expand_bind_of_absorbs (hs : s.Layered) (hf : Absorbs f s.image) (t : Ty) :
    (s.expand t).bind f = t.bind f := by
  rw [← map_rep_bind_of_absorbs hf fun v hv => leaves_expand hs hv]
  show (s.zonk t).bind f = t.bind f
  rw [zonk_eq_bind hs, hf.bind]

end Reading

/-! ## Merging two classes -/

section Merge

variable {s : Solver} {v w : TyVar}

theorem values_merge (s : Solver) (v w : TyVar) : (s.merge v w).values = s.values := by
  simp only [merge, learn]
  split <;> split <;> rfl

theorem value?_merge (hv : s.value? v = none) (hw : s.value? w = none) (x : TyVar) :
    (s.merge v w).value? x = s.value? x := by
  rw [value?, value?, values_merge, rep_merge]
  by_cases hvw : s.classes.rep v = s.classes.rep w
  · rw [Classes.merge_of_rep_eq _ _ _ hvw]
    rfl
  · obtain ⟨a, b, hab, hrep⟩ := s.classes.rep_merge v w hvw
    rw [hrep]
    split
    · rename_i hx
      have hnone : s.values.lookup a = none ∧ s.values.lookup b = none := by
        rcases hab with ⟨rfl, rfl⟩ | ⟨rfl, rfl⟩
        · exact ⟨hv, hw⟩
        · exact ⟨hw, hv⟩
      rw [rep, hx, hnone.1, hnone.2]
    · rfl

private theorem expandBy_congr {s' : Solver} (h : ∀ x, s'.value? x = s.value? x) (k : Nat)
    (t : Ty) : s'.expandBy k t = s.expandBy k t := by
  induction k generalizing t with
  | zero => rfl
  | succ k ih =>
    rw [expandBy, expandBy]
    refine TyTerm.bind_congr fun x _ => ?_
    rw [h x]
    cases s.value? x with
    | none => rfl
    | some u => exact ih u

theorem expand_learn (s : Solver) (v : TyVar) (t : Ty) : (s.learn v).expand t = s.expand t := by
  rw [learn]
  split
  · rfl
  · have hvalue : ∀ x, value? { s with known := s.known ++ [v] } x = s.value? x := fun _ => rfl
    exact expandBy_congr hvalue _ t

theorem learn_layered (hs : s.Layered) (v : TyVar) : (s.learn v).Layered := by
  rw [learn]
  split
  · exact hs
  · exact ⟨hs.rep_key, hs.newer⟩

theorem expand_merge (hv : s.value? v = none) (hw : s.value? w = none) (t : Ty) :
    (s.merge v w).expand t = s.expand t := by
  rw [expand, expand, values_merge]
  exact expandBy_congr (value?_merge hv hw) _ t

theorem rep_merge_of_rep_eq (h : s.rep v = s.rep w) : (s.merge v w).rep = s.rep := by
  funext y
  rw [rep_merge, Classes.merge_of_rep_eq _ _ _ h]
  rfl

theorem image_merge_of_rep_eq (hv : s.value? v = none) (hw : s.value? w = none)
    (h : s.rep v = s.rep w) : (s.merge v w).image = s.image := by
  funext x
  rw [image, zonk, expand_merge hv hw, rep_merge_of_rep_eq h]
  rfl

/-- A merge of two different classes binds one of the representatives to the other. -/
theorem image_merge (hv : s.value? v = none) (hw : s.value? w = none) (h : s.rep v ≠ s.rep w) :
    ∃ a b, (a = s.rep v ∧ b = s.rep w ∨ a = s.rep w ∧ b = s.rep v) ∧
      (∀ x, (s.merge v w).rep x = if s.rep x = a then b else s.rep x) ∧
      (s.merge v w).image = extend s.image a (.var b) := by
  obtain ⟨a, b, hab, hrep⟩ := s.classes.rep_merge v w h
  refine ⟨a, b, hab, hrep, ?_⟩
  funext x
  rw [extend, image, image, zonk, zonk, expand_merge hv hw, TyTerm.bind_map]
  refine TyTerm.bind_congr fun y _ => ?_
  show TyTerm.var ((s.merge v w).rep y) = replacing a (.var b) (s.rep y)
  rw [rep_merge, hrep, replacing]
  by_cases hy : s.rep y = a
  · rw [if_pos hy]
    exact congrArg TyTerm.var (if_pos hy)
  · rw [if_neg hy]
    exact congrArg TyTerm.var (if_neg hy)

theorem merge_layered (hs : s.Layered) (hv : s.value? v = none) (hw : s.value? w = none) :
    (s.merge v w).Layered := by
  have hrep : ∀ x, ∀ d ∈ s.values, (s.merge v w).rep x = d.1 ↔ s.rep x = d.1 := by
    intro x d hd
    by_cases h : s.rep v = s.rep w
    · rw [rep_merge_of_rep_eq h]
    · obtain ⟨a, b, hab, hrep, -⟩ := image_merge hv hw h
      have hne : a ≠ d.1 ∧ b ≠ d.1 := by
        rcases hab with ⟨rfl, rfl⟩ | ⟨rfl, rfl⟩
        · exact ⟨rep_ne_key hv hd, rep_ne_key hw hd⟩
        · exact ⟨rep_ne_key hw hd, rep_ne_key hv hd⟩
      rw [hrep]
      by_cases hx : s.rep x = a
      · rw [if_pos hx, hx]
        exact ⟨fun h => absurd h hne.2, fun h => absurd h hne.1⟩
      · rw [if_neg hx]
  constructor
  · intro b hb
    rw [values_merge] at hb
    exact (hrep b.1 b hb).mpr (hs.rep_key b hb)
  · intro i j b d hi hj x hx hd
    rw [values_merge] at hi hj
    exact hs.newer hi hj x hx ((hrep x d (List.mem_of_getElem? hj)).mp hd)

end Merge

/-! ## Giving a value to a class -/

section Assign

variable {s : Solver} {v : TyVar} {t : Ty}

theorem values_assign (s : Solver) (v : TyVar) (t : Ty) :
    (s.assign v t).values = (s.rep v, t) :: s.values := rfl

theorem value?_assign (s : Solver) (v : TyVar) (t : Ty) (x : TyVar) :
    (s.assign v t).value? x = if s.rep x = s.rep v then some t else s.value? x := by
  rw [value?, rep_assign, values_assign, List.lookup_cons, value?]
  by_cases hx : s.rep x = s.rep v
  · simp [hx]
  · simp [hx, beq_false_of_ne hx]

theorem value?_assign_of_mem (ht : ∀ w ∈ t.leaves, s.value? w = none)
    (hocc : ∀ w ∈ t.leaves, s.rep w ≠ s.rep v) (hw : w ∈ (t.map s.rep).leaves) :
    (s.assign v (t.map s.rep)).value? w = none := by
  obtain ⟨y, hy, rfl⟩ := TyTerm.mem_leaves_map_iff.mp hw
  rw [value?_assign, if_neg (by rw [rep_rep]; exact hocc y hy), value?_rep, ht y hy]

private theorem expandBy_assign (hs : s.Layered) (hv : s.value? v = none)
    (ht : ∀ w ∈ t.leaves, s.value? w = none) (hocc : ∀ w ∈ t.leaves, s.rep w ≠ s.rep v)
    (hu : Reaches s k u) :
    (s.assign v (t.map s.rep)).expandBy (k + 1) u =
      (s.expandBy k u).bind (s.replacingClass v (t.map s.rep)) := by
  have hfix : ∀ m, (s.assign v (t.map s.rep)).expandBy m (t.map s.rep) = t.map s.rep := fun m =>
    expandBy_of_unvalued (fun w hw => value?_assign_of_mem ht hocc hw) m
  have hclass : ∀ x, s.rep x = s.rep v → s.value? x = none := fun x hx => by
    rw [value?_congr hx, hv]
  induction k generalizing u with
  | zero =>
    rw [expandBy]
    refine TyTerm.bind_congr fun x hx => ?_
    rw [value?_assign, replacingClass]
    by_cases hxv : s.rep x = s.rep v
    · rw [if_pos hxv, if_pos hxv]
      rfl
    · rw [if_neg hxv, if_neg hxv, hu.value?_eq_none hx]
  | succ k ih =>
    rw [expandBy, expandBy, TyTerm.bind_bind]
    refine TyTerm.bind_congr fun x hx => ?_
    rw [value?_assign]
    by_cases hxv : s.rep x = s.rep v
    · rw [if_pos hxv, hclass x hxv]
      show (s.assign v (t.map s.rep)).expandBy (k + 1) (t.map s.rep) = s.replacingClass v _ x
      rw [hfix, replacingClass, if_pos hxv]
    · rw [if_neg hxv]
      cases hux : s.value? x with
      | none => exact (if_neg hxv).symm
      | some u' => exact ih (hu.value hs hx hux)

/-- What the new value adds to an expansion is the replacement of its class. -/
theorem expand_assign (hs : s.Layered) (hv : s.value? v = none)
    (ht : ∀ w ∈ t.leaves, s.value? w = none) (hocc : ∀ w ∈ t.leaves, s.rep w ≠ s.rep v) (u : Ty) :
    (s.assign v (t.map s.rep)).expand u =
      (s.expand u).bind (s.replacingClass v (t.map s.rep)) := by
  rw [expand, values_assign, List.length_cons]
  exact expandBy_assign hs hv ht hocc (reaches_length s u)

/-- On representatives, replacing a class is replacing its representative. -/
theorem map_rep_replacingClass (s : Solver) (v : TyVar) (t : Ty) (y : TyVar) :
    (s.replacingClass v (t.map s.rep) y).map s.rep =
      replacing (s.rep v) (t.map s.rep) (s.rep y) := by
  rw [replacingClass, replacing]
  by_cases hy : s.rep y = s.rep v
  · rw [if_pos hy, if_pos hy, TyTerm.map_map]
    exact TyTerm.map_congr fun w _ => s.rep_rep w
  · rw [if_neg hy, if_neg hy, TyTerm.map_var]

/-- A value for a class binds its representative. -/
theorem image_assign (hs : s.Layered) (hv : s.value? v = none)
    (ht : ∀ w ∈ t.leaves, s.value? w = none) (hocc : ∀ w ∈ t.leaves, s.rep w ≠ s.rep v) :
    (s.assign v (t.map s.rep)).image = extend s.image (s.rep v) (t.map s.rep) := by
  have hrep : (s.assign v (t.map s.rep)).rep = s.rep := funext fun x => rep_assign s v _ x
  funext x
  rw [extend, image, image, zonk, zonk, hrep, expand_assign hs hv ht hocc, TyTerm.map_bind,
    TyTerm.bind_map]
  exact TyTerm.bind_congr fun y _ => map_rep_replacingClass s v t y

theorem assign_layered (hs : s.Layered) (ht : ∀ w ∈ t.leaves, s.value? w = none)
    (hocc : ∀ w ∈ t.leaves, s.rep w ≠ s.rep v) : (s.assign v (t.map s.rep)).Layered := by
  constructor
  · intro b hb
    rw [rep_assign]
    rw [values_assign] at hb
    rcases List.mem_cons.mp hb with rfl | hb
    · exact s.rep_rep v
    · exact hs.rep_key b hb
  · intro i j b d hi hj w hw hd
    rw [rep_assign] at hd
    rw [values_assign] at hi hj
    cases i with
    | zero =>
      -- the new value mentions no class with a value, its own included
      rw [List.getElem?_cons_zero, Option.some.injEq] at hi
      subst hi
      obtain ⟨y, hy, rfl⟩ := TyTerm.mem_leaves_map_iff.mp hw
      rw [rep_rep] at hd
      rcases List.mem_cons.mp (List.mem_of_getElem? hj) with rfl | hmem
      · exact absurd hd (hocc y hy)
      · exact absurd hd (rep_ne_key (ht y hy) hmem)
    | succ i =>
      cases j with
      | zero => omega
      | succ j =>
        rw [List.getElem?_cons_succ] at hi hj
        have := hs.newer hi hj w hw hd
        omega

end Assign

/-! ## Solving -/

theorem solveAll_cons (s : Solver) (l r : Ty) (rest : List Equation) :
    s.solveAll ((l, r) :: rest) =
      match compareHeads l r with
      | .variables v w => (s.merge v w).solveAll rest
      | .variable v t =>
        if t.leaves.any fun w => s.rep w = s.rep v then .error (.occurs v (t.map s.rep))
        else (s.assign v (t.map s.rep)).solveAll
          (Equation.bindAll (s.replacingClass v (t.map s.rep)) rest)
      | .parts equations => s.solveAll (equations ++ rest)
      | .clash kind => .error (.mismatch kind (l.map s.rep) (r.map s.rep)) := by
  rw [solveAll]
  split <;> simp_all

/-- The replacement of a class by its value keeps variables without a value. -/
theorem value?_assign_bindAll {rest : List Equation} (ht : ∀ w ∈ t.leaves, s.value? w = none)
    (hocc : ∀ w ∈ t.leaves, s.rep w ≠ s.rep v)
    (hrest : ∀ w ∈ Equation.leaves rest, s.value? w = none)
    (hw : w ∈ Equation.leaves (Equation.bindAll (s.replacingClass v (t.map s.rep)) rest)) :
    (s.assign v (t.map s.rep)).value? w = none := by
  obtain ⟨y, hy, hw⟩ := Equation.mem_leaves_bindAll hw
  rw [replacingClass] at hw
  by_cases hyv : s.rep y = s.rep v
  · rw [if_pos hyv] at hw
    exact value?_assign_of_mem ht hocc hw
  · rw [if_neg hyv] at hw
    rw [List.mem_singleton.mp hw, value?_assign, if_neg hyv, hrest y hy]

/-- A solution of the new binding reads through the replacement of the whole class. -/
theorem absorbs_replacingClass {f : TyVar → Ty} (hf : Absorbs f s.image) (hv : s.value? v = none)
    (hfu : f (s.rep v) = u.bind f) : Absorbs f (s.replacingClass v u) := by
  intro w
  rw [replacingClass]
  by_cases hw : s.rep w = s.rep v
  · rw [if_pos hw, ← hfu, ← hw, rep_of_absorbs hf (by rw [value?_congr hw, hv])]
  · rw [if_neg hw, TyTerm.bind_var]

theorem unvalued_of_variable {rest : List Equation} (hc : compareHeads l r = .variable v t)
    (hes : ∀ w ∈ Equation.leaves ((l, r) :: rest), s.value? w = none) :
    s.value? v = none ∧ ∀ w ∈ t.leaves, s.value? w = none :=
  ⟨hes v (leaves_of_variable hc (.inl rfl)), fun w hw => hes w (leaves_of_variable hc (.inr hw))⟩

theorem expand_unvalued (hs : s.Layered) (l r : Ty) :
    ∀ w ∈ Equation.leaves [(s.expand l, s.expand r)], s.value? w = none := by
  intro w hw
  have hw : w ∈ (s.expand l).leaves ∨ w ∈ (s.expand r).leaves := by
    simpa [Equation.leaves] using hw
  rcases hw with hw | hw
  · exact leaves_expand hs hw
  · exact leaves_expand hs hw

/-- Solving equations adds just these equations, or fails if that is impossible.  No variable of the
equations has a value. -/
theorem solveAll_resolved (s : Solver) (es : List Equation) (hs : s.Layered)
    (hes : ∀ w ∈ Equation.leaves es, s.value? w = none) :
    Resolved s.image es ((s.solveAll es).map image) ∧
      ∀ s', s.solveAll es = .ok s' → s'.Layered := by
  induction s, es using solveAll.induct with
  | case1 s =>
    rw [solveAll]
    refine ⟨⟨image_idempotent hs, fun h => ⟨fun hz => ⟨hz, solves_nil h⟩, And.left⟩⟩, ?_⟩
    intro s' h
    rwa [← Except.ok.inj h]
  | case2 s l r rest v w hc ih =>
    rw [solveAll_cons, hc]
    obtain ⟨rfl, rfl⟩ := compareHeads_variables hc
    have hv : s.value? v = none := hes v (by simp)
    have hw : s.value? w = none := hes w (by simp)
    have hrest : ∀ x ∈ Equation.leaves rest, (s.merge v w).value? x = none := fun x hx => by
      rw [value?_merge hv hw, hes x (by simp [hx])]
    obtain ⟨hres, hlay⟩ := ih (merge_layered hs hv hw) hrest
    refine ⟨hres.of_step fun f => ?_, hlay⟩
    rw [solves_cons, TyTerm.bind_var, TyTerm.bind_var]
    by_cases hvw : s.rep v = s.rep w
    · rw [image_merge_of_rep_eq hv hw hvw]
      refine and_congr_right fun hf => ?_
      rw [and_iff_right]
      rw [← rep_of_absorbs hf hv, hvw, rep_of_absorbs hf hw]
    · obtain ⟨a, b, hab, -, himage⟩ := image_merge hv hw hvw
      have ha : s.image a = .var a := by
        rcases hab with ⟨rfl, -⟩ | ⟨rfl, -⟩
        · exact image_rep hv
        · exact image_rep hw
      rw [himage, absorbs_extend_iff ha, and_assoc, TyTerm.bind_var]
      refine and_congr_right fun hf => and_congr_left' ?_
      rw [← rep_of_absorbs hf hv, ← rep_of_absorbs hf hw]
      rcases hab with ⟨rfl, rfl⟩ | ⟨rfl, rfl⟩
      · rfl
      · exact eq_comm
  | case3 s l r rest v t hc hocc =>
    rw [solveAll_cons, hc]
    simp only [hocc, if_true]
    refine ⟨?_, fun s' h => by cases h⟩
    rintro f ⟨hf, hsol⟩
    obtain ⟨w, hw, hrep⟩ : ∃ w ∈ t.leaves, s.rep w = s.rep v := by simpa using hocc
    obtain ⟨hv, ht⟩ := unvalued_of_variable hc hes
    have heq : f (s.rep v) = (t.map s.rep).bind f := by
      rw [rep_of_absorbs hf hv, map_rep_bind_of_absorbs hf ht]
      exact (solves_variable_iff hc f).mp (solves_cons.mp hsol).1
    refine TyTerm.ne_bind_of_mem_leaves (TyTerm.mem_leaves_map_iff.mpr ⟨w, hw, hrep⟩) ?_ heq
    intro hvar
    cases t with
    | var x => exact compareHeads_variable_ne hc x rfl
    | lit name args => simp at hvar
    | fn domain codomain => simp at hvar
  | case4 s l r rest v t hc hocc ih =>
    rw [solveAll_cons, hc]
    simp only [hocc, Bool.false_eq_true, if_false]
    have hocc : ∀ w ∈ t.leaves, s.rep w ≠ s.rep v := by simpa using hocc
    obtain ⟨hv, ht⟩ := unvalued_of_variable hc hes
    have hrest : ∀ w ∈ Equation.leaves rest, s.value? w = none := fun w hw =>
      hes w (by simp [hw])
    obtain ⟨hres, hlay⟩ := ih (assign_layered hs ht hocc) fun w hw =>
      value?_assign_bindAll ht hocc hrest hw
    refine ⟨hres.of_step fun f => ?_, hlay⟩
    rw [image_assign hs hv ht hocc, absorbs_extend_iff (image_rep hv), solves_cons,
      solves_variable_iff hc f, and_assoc]
    refine and_congr_right fun hf => ?_
    rw [rep_of_absorbs hf hv, map_rep_bind_of_absorbs hf ht]
    refine and_congr_right fun hfu => solves_bindAll_iff ?_
    refine absorbs_replacingClass hf hv ?_
    rw [rep_of_absorbs hf hv, map_rep_bind_of_absorbs hf ht, hfu]
  | case5 s l r rest equations hc ih =>
    rw [solveAll_cons, hc]
    obtain ⟨hres, hlay⟩ := ih hs fun v hv => hes v (leaves_of_parts hc hv)
    refine ⟨hres.of_step fun f => ?_, hlay⟩
    rw [solves_append, solves_cons, solves_parts_iff hc]
  | case6 s l r rest kind hc =>
    rw [solveAll_cons, hc]
    refine ⟨?_, fun s' h => by cases h⟩
    rintro f ⟨-, hf⟩
    exact bind_ne_bind_of_clash hc f (solves_cons.mp hf).1

theorem constrain_ok {s' : Solver} (hs : s.Layered) (h : s.constrain l r = .ok s') :
    s'.Layered ∧ ∀ f, Absorbs f s'.image ↔ Absorbs f s.image ∧ l.bind f = r.bind f := by
  obtain ⟨hres, hlay⟩ := solveAll_resolved s _ hs (expand_unvalued hs l r)
  rw [constrain] at h
  rw [h] at hres
  refine ⟨hlay s' h, fun f => (hres.2 f).trans (and_congr_right fun hf => ?_)⟩
  rw [solves_cons, and_iff_left (solves_nil f), expand_bind_of_absorbs hs hf,
    expand_bind_of_absorbs hs hf]

theorem constrain_error (hs : s.Layered) {e : TypeError} (h : s.constrain l r = .error e)
    {f : TyVar → Ty} (hf : Absorbs f s.image) : l.bind f ≠ r.bind f := by
  obtain ⟨hres, -⟩ := solveAll_resolved s _ hs (expand_unvalued hs l r)
  rw [constrain] at h
  rw [h] at hres
  intro heq
  refine hres f ⟨hf, solves_cons.mpr ⟨?_, solves_nil f⟩⟩
  rw [expand_bind_of_absorbs hs hf, expand_bind_of_absorbs hs hf, heq]

end Solver
end BlockGraph
