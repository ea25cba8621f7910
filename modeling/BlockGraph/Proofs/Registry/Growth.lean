import BlockGraph.Proofs.Registry.Names
import Mathlib.Data.List.Iterate

/-!
# Growing types

A type that grows takes one name after another from the names that the search for a
free one would try.  These are finitely many, and every name that has been given is
taken from then on.  `spareNames` lists those that are left.  A type grows by names
from the front of this list, and growing by more than its length is refused after all
of them have been given.
-/

namespace BlockGraph

theorem firsts_filter {α : Type} [DecidableEq α] (p : α → Bool) (l : List α) :
    firsts (l.filter p) = (firsts l).filter p := by
  induction l with
  | nil => rfl
  | cons a rest ih =>
    rw [firsts, List.filter_cons, List.filter_cons]
    split
    · rw [firsts, ih, List.filter_comm]
    · next ha =>
      -- An element that fails the condition is no reason to drop one that meets it.
      rw [ih, List.filter_filter]
      refine List.filter_congr fun b _ => ?_
      cases hb : p b with
      | false => rfl
      | true =>
        have hne : b ≠ a := fun he => ha (he ▸ hb)
        simp [hne]

namespace Naming

variable {taken : String → Bool} {names rest : List String} {c : String}

/-- The names on a list that are not taken, each of them once. -/
def free (taken : String → Bool) (names : List String) : List String :=
  firsts (names.filter fun name => !taken name)

theorem mem_free : c ∈ free taken names ↔ c ∈ names ∧ taken c = false := by
  rw [free, mem_firsts, List.mem_filter, Bool.not_eq_true']

theorem firstFree_eq_head? (taken : String → Bool) (attempts : Nat) (name : String) :
    firstFree taken attempts name = (free taken (List.iterate next name attempts)).head? := by
  induction attempts generalizing name with
  | zero => rfl
  | succ attempts ih =>
    rw [firstFree, List.iterate, free, List.filter_cons]
    cases htaken : taken name with
    | true => exact ih (next name)
    | false => rfl

/-- When the first free name is given, the others are left. -/
theorem free_insert (h : free taken names = c :: rest) :
    free (fun name => taken name || decide (name = c)) names = rest := by
  have hmem : c ∉ rest := by
    have hnodup := firsts_nodup (names.filter fun name => !taken name)
    rw [free] at h
    rw [h] at hnodup
    exact (List.nodup_cons.mp hnodup).1
  have hsplit : (fun name => !(taken name || decide (name = c))) =
      fun name => !decide (name = c) && !taken name := by
    funext name
    rw [Bool.not_or, Bool.and_comm]
  rw [free, hsplit, ← List.filter_filter, firsts_filter, ← free, h,
    List.filter_cons_of_neg (by simp)]
  refine List.filter_eq_self.mpr fun b hb => ?_
  have hne : b ≠ c := fun he => hmem (he ▸ hb)
  simp [hne]

end Naming

/-- The type with more variants, all without fields. -/
def UserType.grow (added : List String) (t : UserType) : UserType :=
  { t with variants := t.variants ++ added.map fun ctor => ⟨ctor, []⟩ }

namespace Registry

variable {r : Registry} {name c : String} {added : List String}

/-- Whether a name stands for a constructor or a function. -/
def isTaken (r : Registry) (name : String) : Bool :=
  (r.ctor? name).isSome || (r.function? name).isSome

/-- The names that new variants get, in the order in which they get them. -/
def spareNames (r : Registry) : List String :=
  Naming.free r.isTaken
    (List.iterate Naming.next Naming.constructorPlaceholder Naming.maxAttempts)

/-- The registry in which a type has grown. -/
def withVariants (r : Registry) (name : String) (added : List String) : Registry :=
  r.modifyType name (UserType.grow added)

theorem spareNames_nodup (r : Registry) : r.spareNames.Nodup :=
  firsts_nodup _

theorem length_spareNames (r : Registry) : r.spareNames.length ≤ Naming.maxAttempts := by
  have hsub : r.spareNames ⊆
      List.iterate Naming.next Naming.constructorPlaceholder Naming.maxAttempts := fun c hc =>
    (Naming.mem_free.mp hc).1
  exact (r.spareNames_nodup.subperm hsub).length_le.trans_eq (List.length_iterate ..)

theorem isTaken_eq_false_iff :
    r.isTaken c = false ↔ r.variant? c = none ∧ r.function? c = none := by
  rw [isTaken, Bool.or_eq_false_iff, ctor?_isSome]
  simp only [Option.isSome_eq_false_iff, Option.isNone_iff_eq_none]

theorem spareNames_unused (hc : c ∈ r.spareNames) : r.variant? c = none ∧ r.function? c = none :=
  isTaken_eq_false_iff.mp (Naming.mem_free.mp hc).2

/-- A new variant gets the first name that is left. -/
theorem proposeCtorName_placeholder (r : Registry) :
    r.proposeCtorName Naming.constructorPlaceholder [] =
      match r.spareNames with
      | [] => .error (.nameCollision Naming.constructorPlaceholder Naming.maxAttempts)
      | c :: _ => .ok c := by
  have hname : Naming.sanitize Naming.constructorPlaceholder Naming.constructorPlaceholder =
      Naming.constructorPlaceholder := by decide
  have htaken : (fun name => (r.ctor? name).isSome || (r.function? name).isSome ||
      ([] : List String).contains name) = r.isTaken := by
    funext name
    simp [isTaken]
  rw [proposeCtorName, htaken, Naming.propose, hname, Naming.firstFree_eq_head?, ← spareNames]
  cases r.spareNames with
  | nil => rfl
  | cons c rest => rfl

theorem withVariants_nil (r : Registry) (name : String) : r.withVariants name [] = r := by
  simp [withVariants, modifyType, UserType.grow]

theorem withVariants_withVariants (r : Registry) (name : String) (added more : List String) :
    (r.withVariants name added).withVariants name more = r.withVariants name (added ++ more) := by
  rw [withVariants, withVariants, modifyType_modifyType (f := UserType.grow added) fun _ => rfl,
    withVariants]
  congr 1
  funext t
  simp [UserType.grow]

theorem userType?_withVariants (r : Registry) (name type : String) (added : List String) :
    (r.withVariants name added).userType? type = (r.userType? type).map fun t =>
      if t.name = name then t.grow added else t :=
  userType?_modifyType r name type fun _ => rfl

theorem mem_ctors_withVariants {e : String × Variant} :
    e ∈ (r.withVariants name added).ctors ↔
      e ∈ r.ctors ∨ ∃ t ∈ r.types, t.name = name ∧ e.1 = name ∧ ∃ c ∈ added, e.2 = ⟨c, []⟩ := by
  constructor
  · intro he
    rcases mem_ctors_modifyType (f := UserType.grow added) (fun _ => rfl) he with he |
      ⟨t, ht, hname, howner, hv⟩
    · exact .inl he
    rcases List.mem_append.mp hv with hv | hv
    · exact .inl (mem_ctors.mpr ⟨t, ht, hname.trans howner.symm, hv⟩)
    · obtain ⟨c, hc, hce⟩ := List.mem_map.mp hv
      exact .inr ⟨t, ht, hname, howner, c, hc, hce.symm⟩
  · rintro (he | ⟨t, ht, hname, howner, c, hc, hce⟩)
    · obtain ⟨t, ht, hname, hv⟩ := mem_ctors.mp he
      refine mem_ctors.mpr ⟨_, List.mem_map_of_mem ht, ?_, ?_⟩
      · split
        · exact hname
        · exact hname
      · split
        · exact List.mem_append_left _ hv
        · exact hv
    · refine mem_ctors.mpr ⟨_, List.mem_map_of_mem ht, ?_, ?_⟩
      · rw [if_pos hname, howner]
        exact hname
      · rw [if_pos hname, hce]
        exact List.mem_append_right _ (List.mem_map_of_mem hc)

/-- A name that has been given is taken, and no other comes to be. -/
theorem isTaken_withVariants (ht : (r.userType? name).isSome) (c : String) :
    (r.withVariants name [c]).isTaken = fun x => r.isTaken x || decide (x = c) := by
  obtain ⟨t, ht, hname⟩ := List.mem_map.mp (userType?_isSome_iff.mp ht)
  funext x
  have hfunction : (r.withVariants name [c]).function? x = r.function? x := rfl
  have hctor : ((r.withVariants name [c]).variant? x).isSome =
      ((r.variant? x).isSome || decide (x = c)) := by
    rw [Bool.eq_iff_iff, Bool.or_eq_true, decide_eq_true_eq, variant?_isSome_iff,
      variant?_isSome_iff]
    constructor
    · rintro ⟨e, he, rfl⟩
      rcases mem_ctors_withVariants.mp he with he | ⟨_, _, _, _, c', hc', hce⟩
      · exact .inl ⟨e, he, rfl⟩
      · rw [hce]
        exact .inr (List.mem_singleton.mp hc')
    · rintro (⟨e, he, hex⟩ | rfl)
      · exact ⟨e, mem_ctors_withVariants.mpr (.inl he), hex⟩
      · exact ⟨(name, ⟨x, []⟩), mem_ctors_withVariants.mpr (.inr
          ⟨t, ht, hname, rfl, x, List.mem_singleton_self x, rfl⟩), rfl⟩
  rw [isTaken, isTaken, hfunction, ctor?_isSome, ctor?_isSome, hctor, Bool.or_assoc, Bool.or_assoc,
    Bool.or_comm (decide (x = c))]

theorem spareNames_withVariants (ht : (r.userType? name).isSome) {rest : List String}
    (hspare : r.spareNames = c :: rest) : (r.withVariants name [c]).spareNames = rest := by
  rw [spareNames, isTaken_withVariants ht]
  exact Naming.free_insert hspare

theorem isSome_userType?_withVariants (ht : (r.userType? name).isSome) (type : String)
    (added : List String) : ((r.withVariants type added).userType? name).isSome := by
  rw [userType?_withVariants, Option.isSome_map]
  exact ht

/-- A type grows by the names that are left, as many as are asked for or all of them. -/
theorem growType_eq (ht : (r.userType? name).isSome) (count : Nat) :
    growType name count r =
      if count ≤ r.spareNames.length then .ok () (r.withVariants name (r.spareNames.take count))
      else .error (.type (.nameCollision Naming.constructorPlaceholder Naming.maxAttempts))
        (r.withVariants name r.spareNames) := by
  induction count generalizing r with
  | zero => rw [growType, if_pos (Nat.zero_le _), List.take_zero, withVariants_nil]
  | succ count ih =>
    rw [growType, proposeCtorName_placeholder]
    cases hspare : r.spareNames with
    | nil =>
      rw [withVariants_nil]
      rfl
    | cons c rest =>
      have hstep := ih (isSome_userType?_withVariants ht name [c])
      rw [spareNames_withVariants ht hspare, withVariants_withVariants,
        withVariants_withVariants] at hstep
      simp only [List.length_cons, Nat.add_le_add_iff_right, List.take_succ_cons]
      exact hstep

theorem setVariantCount_unknown (hnone : r.userType? name = none) (count : Nat) :
    setVariantCount name count r = .error (.unknownType name) r := by
  simp only [setVariantCount, editType, hnone]

/-- Variants are dropped from the end, or added up to the number of names that are left. -/
theorem setVariantCount_eq {t : UserType} (ht : r.userType? name = some t) (count : Nat) :
    setVariantCount name count r =
      if count ≤ t.variants.length then
        .ok ((t.variants.drop count).map Variant.ctor)
          (r.modifyType name fun t => { t with variants := t.variants.take count })
      else if count ≤ t.variants.length + r.spareNames.length then
        .ok [] (r.withVariants name (r.spareNames.take (count - t.variants.length)))
      else
        .error (.type (.nameCollision Naming.constructorPlaceholder Naming.maxAttempts))
          (r.withVariants name r.spareNames) := by
  simp only [setVariantCount, editType, ht]
  split
  · rfl
  · rw [growType_eq (by rw [ht]; rfl)]
    by_cases hcount : count ≤ t.variants.length + r.spareNames.length
    · rw [if_pos (Nat.sub_le_iff_le_add'.mpr hcount), if_pos hcount]
    · rw [if_neg fun h => hcount (Nat.sub_le_iff_le_add'.mp h), if_neg hcount]

/-- A number of variants that cannot be set leaves the registry as it is, or the type with all names
that were left. -/
theorem setVariantCount_refused {count : Nat} {e : EditError} {r' : Registry}
    (h : setVariantCount name count r = .error e r') :
    r' = r ∨ r' = r.withVariants name r.spareNames := by
  cases hname : r.userType? name with
  | none =>
    rw [setVariantCount_unknown hname] at h
    cases h
    exact .inl rfl
  | some t =>
    rw [setVariantCount_eq hname] at h
    split at h
    · cases h
    split at h
    · cases h
    cases h
    exact .inr rfl

theorem HasVar.of_withVariants {v : TyVar} (h : (r.withVariants name added).HasVar v) :
    r.HasVar v := by
  refine h.of_modifyType_fields (f := UserType.grow added)
    (fun _ => rfl) fun t ht _ w hw ty hty => ?_
  rcases List.mem_append.mp hw with hw | hw
  · exact ⟨(t.name, w), mem_ctors.mpr ⟨t, ht, rfl, hw⟩, hty⟩
  · obtain ⟨ctor, _, rfl⟩ := List.mem_map.mp hw
    exact absurd hty List.not_mem_nil

theorem Below.withVariants {s : Supply} (h : r.Below s) : (r.withVariants name added).Below s :=
  h.of_hasVar fun _ hv => hv.of_withVariants

end Registry
end BlockGraph
