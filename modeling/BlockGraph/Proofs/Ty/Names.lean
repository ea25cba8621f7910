import BlockGraph.Proofs.Unification.AlphaEquivalence
import BlockGraph.Ty.Names

/-!
# Letters for variables

A type on its own is printed and stored with its variables named by order of first
appearance.  `lettered` is this form of a type, for variables of any kind.  It does not
depend on the variables: types that differ by a renaming have the same form
(`lettered_map`), and a type is its own form with numbers in the place of the names
(`renamesTo_instantiate_lettered`).  Both rest on names being different for different
places (`nthName_injective`).

Names and fresh variables can be handed out while a type is gone through, with a table of the
variables met so far.  This gives what a table gives that was filled before (`threaded_eq`).
-/

namespace BlockGraph

theorem toList_nthName (n : Nat) :
    (nthName n).toList =
      Char.ofNat (97 + n % 26) :: if n / 26 = 0 then [] else (toString (n / 26)).toList := by
  rw [nthName]
  split
  · exact String.toList_singleton _
  · rw [String.toList_append, String.toList_singleton]
    rfl

theorem toNat_letter : ∀ n < 26, (Char.ofNat (97 + n)).toNat = 97 + n := by
  decide

theorem nthName_injective : Function.Injective nthName := by
  intro m n h
  have hchars := congrArg String.toList h
  rw [toList_nthName, toList_nthName, List.cons.injEq] at hchars
  obtain ⟨hletter, hround⟩ := hchars
  have hletter := congrArg Char.toNat hletter
  rw [toNat_letter _ (Nat.mod_lt m (by decide)),
    toNat_letter _ (Nat.mod_lt n (by decide))] at hletter
  have hne (k : Nat) : (toString k).toList ≠ [] := by
    rw [Nat.toString_eq_ofList_toDigits, String.toList_ofList]
    exact Nat.toDigits_ne_nil
  have hround : m / 26 = n / 26 := by
    split at hround <;> split at hround
    next hm hn => rw [hm, hn]
    · exact absurd hround.symm (hne _)
    · exact absurd hround (hne _)
    · have hdigits := congrArg (fun digits => Nat.ofDigitChars 10 digits 0) hround
      simpa [Nat.toString_eq_ofList_toDigits] using hdigits
  omega

/-! ## First appearances under a renaming -/

section

variable {ν μ : Type} [DecidableEq ν] [DecidableEq μ] {f : ν → μ}

theorem firsts_map {l : List ν} (hf : ∀ v ∈ l, ∀ w ∈ l, f v = f w → v = w) :
    firsts (l.map f) = (firsts l).map f := by
  induction l with
  | nil => rfl
  | cons v rest ih =>
    have ih := ih fun u hu w hw =>
      hf u (List.mem_cons_of_mem v hu) w (List.mem_cons_of_mem v hw)
    rw [List.map_cons, firsts, firsts, List.map_cons, ih, List.filter_map]
    congr 2
    refine List.filter_congr fun w hw => ?_
    have hw : w ∈ rest := mem_firsts.mp hw
    have hiff : f w = f v ↔ w = v :=
      ⟨hf w (List.mem_cons_of_mem v hw) v List.mem_cons_self, congrArg f⟩
    simp [hiff]

theorem idxOf_map {l : List ν} {v : ν} (hf : ∀ w ∈ l, f w = f v → w = v) :
    (l.map f).idxOf (f v) = l.idxOf v := by
  induction l with
  | nil => rfl
  | cons w rest ih =>
    have ih := ih fun u hu => hf u (List.mem_cons_of_mem w hu)
    by_cases h : w = v
    · rw [h, List.map_cons, List.idxOf_cons_self, List.idxOf_cons_self]
    · have hne : f w ≠ f v := fun he => h (hf w List.mem_cons_self he)
      rw [List.map_cons, List.idxOf_cons_ne _ hne, List.idxOf_cons_ne _ h, ih]

end

namespace TyTerm

variable {ν μ : Type} [DecidableEq ν] [DecidableEq μ]

/-- The name of a variable of the term, by order of first appearance. -/
def letter (t : TyTerm ν) (v : ν) : String :=
  nthName (t.vars.idxOf v)

/-- The term with names by order of first appearance in the place of its variables. -/
def lettered (t : TyTerm ν) : NamedTy :=
  t.map t.letter

theorem named_none (t : Ty) : (t.named .none).1 = t.lettered := by
  have hsee : (VarNames.none.see t).used = t.vars := by simp [VarNames.see, VarNames.none]
  show t.map (VarNames.none.see t).name = t.map t.letter
  congr 1
  funext v
  rw [VarNames.name, hsee, letter]

theorem letter_injective (t : TyTerm ν) :
    ∀ v ∈ t.leaves, ∀ w ∈ t.leaves, t.letter v = t.letter w → v = w := by
  intro v hv w _ h
  exact (List.idxOf_inj (mem_vars.mpr hv)).mp (nthName_injective h)

theorem vars_map {f : ν → μ} {t : TyTerm ν}
    (hf : ∀ v ∈ t.leaves, ∀ w ∈ t.leaves, f v = f w → v = w) :
    (t.map f).vars = t.vars.map f := by
  rw [vars, leaves_map, firsts_map hf, vars]

/-- The form of a term does not depend on its variables. -/
theorem lettered_map {f : ν → μ} {t : TyTerm ν}
    (hf : ∀ v ∈ t.leaves, ∀ w ∈ t.leaves, f v = f w → v = w) :
    (t.map f).lettered = t.lettered := by
  rw [lettered, lettered, map_map]
  refine bind_congr fun v hv => ?_
  have hidx : (t.vars.map f).idxOf (f v) = t.vars.idxOf v :=
    idxOf_map fun w hw => hf w (mem_vars.mp hw) v hv
  rw [Function.comp_apply, letter, vars_map hf, hidx, letter]

theorem instantiate_injective (t : TyTerm ν) (s : Supply) :
    ∀ v ∈ t.leaves, ∀ w ∈ t.leaves, s.numbered t.vars v = s.numbered t.vars w → v = w := by
  intro v hv w hw
  exact s.numbered_injective v (mem_vars.mpr hv) w (mem_vars.mpr hw)

theorem lettered_instantiate (t : TyTerm ν) (s : Supply) :
    (t.instantiate s).1.lettered = t.lettered :=
  lettered_map (t.instantiate_injective s)

theorem lettered_lettered (t : TyTerm ν) : t.lettered.lettered = t.lettered :=
  lettered_map t.letter_injective

/-- Numbers in the place of the names give the type back, up to the choice of its variables. -/
theorem renamesTo_instantiate_lettered (t : Ty) (s : Supply) :
    t.RenamesTo (t.lettered.instantiate s).1 := by
  refine ⟨s.numbered t.lettered.vars ∘ t.letter, fun v hv w hw h => ?_, (map_map _ _ t).symm⟩
  have hmem : ∀ u ∈ t.leaves, t.letter u ∈ t.lettered.leaves := fun u hu => by
    rw [lettered, leaves_map]
    exact List.mem_map_of_mem hu
  exact t.letter_injective v hv w hw
    (t.lettered.instantiate_injective s _ (hmem v hv) _ (hmem w hw) h)

end TyTerm

/-! ## Filling a table on the way -/

section

variable {ν : Type} [DecidableEq ν]

/-- The table of the variables met so far, after one more. -/
def enter (seen : List ν) (v : ν) : List ν :=
  if v ∈ seen then seen else seen ++ [v]

/-- Entering variables one at a time adds the new ones in order of first appearance. -/
theorem foldl_enter (l seen : List ν) :
    l.foldl enter seen = seen ++ (firsts l).filter fun v => v ∉ seen := by
  induction l generalizing seen with
  | nil => simp [firsts]
  | cons v rest ih =>
    rw [List.foldl_cons, ih, firsts, enter, List.filter_cons]
    split
    next hv =>
      rw [if_neg (by simpa using hv), List.filter_filter]
      refine congrArg (seen ++ ·) (List.filter_congr fun w _ => ?_)
      by_cases hw : w = v <;> simp [hw, hv]
    next hv =>
      rw [if_pos (by simpa using hv), List.filter_filter, List.append_assoc]
      refine congrArg (fun l => seen ++ v :: l) (List.filter_congr fun w _ => ?_)
      simp [Bool.and_comm]

/-- A variable that is in the table keeps its place. -/
theorem idxOf_foldl_enter (l : List ν) {seen : List ν} {v : ν} (hv : v ∈ seen) :
    (l.foldl enter seen).idxOf v = seen.idxOf v := by
  rw [foldl_enter, List.idxOf_append_of_mem hv]

theorem mem_foldl_enter {l seen : List ν} {v : ν} (hv : v ∈ l) : v ∈ l.foldl enter seen := by
  rw [foldl_enter]
  by_cases h : v ∈ seen <;> simp [h, mem_firsts.mpr hv]

end

namespace TyTerm

variable {ν μ : Type} [DecidableEq ν]

mutual

/-- Replaces the variables from left to right, in one pass.  A variable that is not in the table is
entered, and each one is replaced by what belongs to its place in the table. -/
def threaded (place : Nat → μ) : TyTerm ν → List ν → TyTerm μ × List ν
  | var v, seen =>
    let seen := enter seen v
    (var (place (seen.idxOf v)), seen)
  | lit name args, seen =>
    let (args, seen) := threadedAll place args seen
    (lit name args, seen)
  | fn domain codomain, seen =>
    let (domain, seen) := threaded place domain seen
    let (codomain, seen) := threaded place codomain seen
    (fn domain codomain, seen)

def threadedAll (place : Nat → μ) : List (TyTerm ν) → List ν → List (TyTerm μ) × List ν
  | [], seen => ([], seen)
  | t :: rest, seen =>
    let (t, seen) := threaded place t seen
    let (rest, seen) := threadedAll place rest seen
    (t :: rest, seen)

end

/-- A table that was filled further gives each variable of the term what it gave on the way. -/
theorem map_idxOf_foldl_enter (place : Nat → μ) (t : TyTerm ν) (later seen : List ν) :
    (t.map fun v => place ((later.foldl enter (t.leaves.foldl enter seen)).idxOf v)) =
      t.map fun v => place ((t.leaves.foldl enter seen).idxOf v) :=
  bind_congr fun _ hv =>
    congrArg (fun k => var (place k)) (idxOf_foldl_enter later (mem_foldl_enter hv))

mutual

/-- The table can as well be filled before the term is gone through. -/
theorem threaded_eq (place : Nat → μ) (t : TyTerm ν) (seen : List ν) :
    t.threaded place seen =
      (t.map fun v => place ((t.leaves.foldl enter seen).idxOf v), t.leaves.foldl enter seen) := by
  match t with
  | var v => rfl
  | lit name args => rw [threaded, threadedAll_eq place args seen, map_lit, leaves]
  | fn domain codomain =>
    simp only [threaded, threaded_eq place domain seen, threaded_eq place codomain]
    rw [leaves, List.foldl_append, map_fn, map_idxOf_foldl_enter]

theorem threadedAll_eq (place : Nat → μ) (ts : List (TyTerm ν)) (seen : List ν) :
    threadedAll place ts seen =
      (ts.map (map fun v => place (((leavesAll ts).foldl enter seen).idxOf v)),
        (leavesAll ts).foldl enter seen) := by
  match ts with
  | [] => rfl
  | t :: rest =>
    simp only [threadedAll, threaded_eq place t seen, threadedAll_eq place rest]
    rw [leavesAll, List.foldl_append, List.map_cons, map_idxOf_foldl_enter]

end

/-- One pass that hands out names gives the named type and its table of names. -/
theorem threaded_nthName (t : Ty) (names : VarNames) :
    t.threaded nthName names.used = ((t.named names).1, (t.named names).2.used) := by
  rw [threaded_eq, foldl_enter]
  rfl

/-- One pass that hands out fresh variables gives the instance, and skips as many of them as the
table has entries. -/
theorem threaded_instantiate (t : TyTerm ν) (s : Supply) :
    t.threaded (s.next + ·) [] = ((t.instantiate s).1, t.vars) ∧
      (t.instantiate s).2 = s.skip (t.threaded (s.next + ·) []).2.length := by
  have hvars : t.leaves.foldl enter [] = t.vars := by simp [foldl_enter, vars]
  rw [threaded_eq, hvars]
  exact ⟨rfl, rfl⟩

end TyTerm
end BlockGraph
