import BlockGraph.Ty.Comparison

/-!
# Replacing the variables of a type

`TyTerm.bind` is substitution, and the lemmas here are the ones that every later
argument about solving equations rests on: replacements compose, they only see
the variables that occur, and a term determines what its variables were replaced
by.  The last of these, `bind_eq_bind_iff`, is what makes two most general
solutions renamings of each other.

Terms nest lists of terms, so structural induction goes through `TyTerm.induct`,
which gives the hypothesis for every argument of a literal at once.
-/

namespace BlockGraph
namespace TyTerm

variable {ν μ κ : Type}

/-- Structural induction, with one hypothesis for all arguments of a literal. -/
@[elab_as_elim, induction_eliminator]
theorem induct {motive : TyTerm ν → Prop} (var : ∀ v, motive (.var v))
    (lit : ∀ name args, (∀ t ∈ args, motive t) → motive (.lit name args))
    (fn : ∀ domain codomain, motive domain → motive codomain → motive (.fn domain codomain))
    (t : TyTerm ν) : motive t := by
  refine @TyTerm.rec ν motive (fun ts => ∀ t ∈ ts, motive t) var lit fn ?_ ?_ t
  · intro t h
    exact absurd h List.not_mem_nil
  · intro u rest hu hrest t ht
    rcases List.mem_cons.mp ht with rfl | ht
    · exact hu
    · exact hrest t ht

/-! ## Equations of the recursion -/

@[simp]
theorem bind_var (f : ν → TyTerm μ) (v : ν) : (var v).bind f = f v := rfl

@[simp]
theorem bind_lit (f : ν → TyTerm μ) (name : String) (args : List (TyTerm ν)) :
    (lit name args).bind f = lit name (args.map (bind f)) := by
  rw [bind, bindAll_eq_map]

@[simp]
theorem bind_fn (f : ν → TyTerm μ) (domain codomain : TyTerm ν) :
    (fn domain codomain).bind f = fn (domain.bind f) (codomain.bind f) := rfl

@[simp]
theorem leaves_var (v : ν) : (var v).leaves = [v] := rfl

@[simp]
theorem leaves_lit (name : String) (args : List (TyTerm ν)) :
    (lit name args).leaves = args.flatMap leaves := by
  rw [leaves, leavesAll_eq_flatMap]

@[simp]
theorem leaves_fn (domain codomain : TyTerm ν) :
    (fn domain codomain).leaves = domain.leaves ++ codomain.leaves := rfl

/-! ## Composition -/

theorem bind_bind (f : ν → TyTerm μ) (g : μ → TyTerm κ) (t : TyTerm ν) :
    (t.bind f).bind g = t.bind fun v => (f v).bind g := by
  induction t with
  | var v => rfl
  | lit name args ih =>
    simp only [bind_lit, List.map_map]
    congr 1
    exact List.map_congr_left ih
  | fn domain codomain ihd ihc => rw [bind_fn, bind_fn, bind_fn, ihd, ihc]

@[simp]
theorem bind_self (t : TyTerm ν) : t.bind var = t := by
  induction t with
  | var v => rfl
  | lit name args ih =>
    rw [bind_lit, List.map_congr_left ih, List.map_id']
  | fn domain codomain ihd ihc => rw [bind_fn, ihd, ihc]

/-- A term determines what each of its variables was replaced by. -/
theorem bind_eq_bind_iff {f g : ν → TyTerm μ} {t : TyTerm ν} :
    t.bind f = t.bind g ↔ ∀ v ∈ t.leaves, f v = g v := by
  induction t with
  | var v => simp
  | lit name args ih =>
    simp only [bind_lit, lit.injEq, true_and, List.map_inj_left, leaves_lit, List.mem_flatMap]
    constructor
    · rintro h v ⟨t, ht, hv⟩
      exact (ih t ht).mp (h t ht) v hv
    · intro h t ht
      exact (ih t ht).mpr fun v hv => h v ⟨t, ht, hv⟩
  | fn domain codomain ihd ihc =>
    simp only [bind_fn, fn.injEq, ihd, ihc, leaves_fn, List.mem_append]
    constructor
    · rintro ⟨hd, hc⟩ v (hv | hv)
      · exact hd v hv
      · exact hc v hv
    · intro h
      exact ⟨fun v hv => h v (.inl hv), fun v hv => h v (.inr hv)⟩

theorem bind_congr {f g : ν → TyTerm μ} {t : TyTerm ν} (h : ∀ v ∈ t.leaves, f v = g v) :
    t.bind f = t.bind g :=
  bind_eq_bind_iff.mpr h

theorem bind_eq_self_iff {f : ν → TyTerm ν} {t : TyTerm ν} :
    t.bind f = t ↔ ∀ v ∈ t.leaves, f v = var v := by
  have h := bind_eq_bind_iff (f := f) (g := var) (t := t)
  rwa [bind_self] at h

theorem mem_leaves_bind_iff {f : ν → TyTerm μ} {t : TyTerm ν} {w : μ} :
    w ∈ (t.bind f).leaves ↔ ∃ v ∈ t.leaves, w ∈ (f v).leaves := by
  refine ⟨mem_leaves_bind t, ?_⟩
  rintro ⟨v, hv, hw⟩
  induction t with
  | var u =>
    rw [leaves_var, List.mem_singleton] at hv
    rwa [bind_var, ← hv]
  | lit name args ih =>
    simp only [leaves_lit, List.mem_flatMap] at hv
    obtain ⟨t, ht, hv⟩ := hv
    simp only [bind_lit, leaves_lit, List.mem_flatMap, List.mem_map]
    exact ⟨t.bind f, ⟨t, ht, rfl⟩, ih t ht hv⟩
  | fn domain codomain ihd ihc =>
    simp only [leaves_fn, List.mem_append] at hv
    simp only [bind_fn, leaves_fn, List.mem_append]
    exact hv.imp ihd ihc

/-! ## Renaming -/

theorem map_map (f : ν → μ) (g : μ → κ) (t : TyTerm ν) : (t.map f).map g = t.map (g ∘ f) :=
  bind_bind _ _ t

theorem bind_map (f : ν → μ) (g : μ → TyTerm κ) (t : TyTerm ν) :
    (t.map f).bind g = t.bind (g ∘ f) :=
  bind_bind _ _ t

theorem map_bind (f : ν → TyTerm μ) (g : μ → κ) (t : TyTerm ν) :
    (t.bind f).map g = t.bind fun v => (f v).map g :=
  bind_bind _ _ t

@[simp]
theorem map_var (f : ν → μ) (v : ν) : (var v).map f = var (f v) := rfl

@[simp]
theorem map_lit (f : ν → μ) (name : String) (args : List (TyTerm ν)) :
    (lit name args).map f = lit name (args.map (map f)) :=
  bind_lit _ name args

@[simp]
theorem map_fn (f : ν → μ) (domain codomain : TyTerm ν) :
    (fn domain codomain).map f = fn (domain.map f) (codomain.map f) := rfl

theorem map_congr {f g : ν → μ} {t : TyTerm ν} (h : ∀ v ∈ t.leaves, f v = g v) :
    t.map f = t.map g :=
  bind_congr fun v hv => by rw [h v hv]

theorem mem_leaves_map_iff {f : ν → μ} {t : TyTerm ν} {w : μ} :
    w ∈ (t.map f).leaves ↔ ∃ v ∈ t.leaves, f v = w := by
  rw [map, mem_leaves_bind_iff]
  simp only [leaves_var, List.mem_singleton, eq_comm]

/-! ## Size, and why a variable is never equal to a larger term over it -/

theorem size_le_sizeAll {t : TyTerm ν} {ts : List (TyTerm ν)} (h : t ∈ ts) :
    t.size ≤ sizeAll ts := by
  induction ts with
  | nil => exact absurd h List.not_mem_nil
  | cons u rest ih =>
    rw [sizeAll]
    rcases List.mem_cons.mp h with rfl | h
    · omega
    · have := ih h
      omega

theorem size_le_size_bind {f : ν → TyTerm μ} {t : TyTerm ν} {v : ν} (hv : v ∈ t.leaves) :
    (f v).size ≤ (t.bind f).size := by
  induction t with
  | var w =>
    rw [leaves_var, List.mem_singleton] at hv
    exact Nat.le_of_eq (by rw [hv, bind_var])
  | lit name args ih =>
    simp only [leaves_lit, List.mem_flatMap] at hv
    obtain ⟨t, ht, hv⟩ := hv
    have harg := size_le_sizeAll (List.mem_map_of_mem (f := bind f) ht)
    have := ih t ht hv
    rw [bind_lit, size]
    omega
  | fn domain codomain ihd ihc =>
    rw [bind_fn, size]
    rcases List.mem_append.mp hv with hv | hv
    · have := ihd hv
      omega
    · have := ihc hv
      omega

theorem size_lt_size_bind {f : ν → TyTerm μ} {t : TyTerm ν} {v : ν} (hv : v ∈ t.leaves)
    (ht : t ≠ var v) : (f v).size < (t.bind f).size := by
  cases t with
  | var w =>
    rw [leaves_var, List.mem_singleton] at hv
    exact absurd (by rw [hv]) ht
  | lit name args =>
    simp only [leaves_lit, List.mem_flatMap] at hv
    obtain ⟨t, hmem, hv⟩ := hv
    have harg := size_le_sizeAll (List.mem_map_of_mem (f := bind f) hmem)
    have := size_le_size_bind (f := f) hv
    rw [bind_lit, size]
    omega
  | fn domain codomain =>
    rw [bind_fn, size]
    rcases List.mem_append.mp hv with hv | hv
    · have := size_le_size_bind (f := f) hv
      omega
    · have := size_le_size_bind (f := f) hv
      omega

/-- No replacement makes a variable equal to a larger term in which it occurs. -/
theorem ne_bind_of_mem_leaves {f : ν → TyTerm μ} {t : TyTerm ν} {v : ν} (hv : v ∈ t.leaves)
    (ht : t ≠ var v) : f v ≠ t.bind f := by
  intro h
  have := size_lt_size_bind (f := f) hv ht
  rw [← h] at this
  omega

end TyTerm
end BlockGraph
