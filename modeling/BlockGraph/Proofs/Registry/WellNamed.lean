import BlockGraph.Proofs.Registry.Derivation
import BlockGraph.Proofs.Registry.Growth
import BlockGraph.Proofs.Workspace.Refusals
import Mathlib.Data.List.Flatten

/-!
# Names stay apart

Names enter a registry through the search for a free one, and the search keeps to legal
names: those that start with an uppercase letter or an underscore and go on with
letters, digits and underscores.  `WellNamed` collects what holds of all names at all times.
Types have names of their own, constructors too, and no constructor is called as a
function.

What an edit leaves behind is well named even if the edit is refused.  A refused edit leaves the
registry as it was, except that a type which could not grow as far as it should
has still grown as far as names were left.
-/

namespace BlockGraph
namespace Naming

variable {c : Char} {name : String}

/-! ## Legal names -/

/-- A legal name matches `[A-Z_][A-Za-z0-9_]*`. -/
def Legal (name : String) : Prop :=
  ∃ first rest, name.toList = first :: rest ∧ (first.isUpper = true ∨ first = '_') ∧
    ∀ c ∈ rest, c.isAlphanum = true ∨ c = '_'

theorem isNameChar_iff : isNameChar c = true ↔ c.isAlphanum = true ∨ c = '_' := by
  simp [isNameChar]

theorem typePlaceholder_legal : Legal typePlaceholder :=
  ⟨'U', ['s', 'e', 'r', 'T', 'y', 'p', 'e'], by simp [typePlaceholder], by decide, by simp⟩

theorem constructorPlaceholder_legal : Legal constructorPlaceholder :=
  ⟨'C', ['o', 'n', 's', 't', 'r', 'u', 'c', 't', 'o', 'r'], by simp [constructorPlaceholder],
    by decide, by simp⟩

theorem isNameChar_of_isDigit (h : c.isDigit = true) : isNameChar c = true := by
  simp [isNameChar, Char.isAlphanum, h]

theorem legal_iff :
    Legal name ↔ ∃ first rest, name.toList = first :: rest ∧
      (first.isUpper = true ∨ first = '_') ∧ ∀ c ∈ rest, isNameChar c = true := by
  simp only [Legal, isNameChar_iff]

theorem isUpper_iff : c.isUpper = true ↔ 65 ≤ c.toNat ∧ c.toNat ≤ 90 := by
  simp [Char.isUpper, UInt32.le_iff_toNat_le]

theorem isLower_iff : c.isLower = true ↔ 97 ≤ c.toNat ∧ c.toNat ≤ 122 := by
  simp [Char.isLower, UInt32.le_iff_toNat_le]

/-- A lowercase letter stands 32 above its uppercase letter. -/
theorem isUpper_toUpper_of_isLower (h : c.isLower = true) : c.toUpper.isUpper = true := by
  have hrange := isLower_iff.mp h
  have hval : 'a'.val ≤ c.val ∧ c.val ≤ 'z'.val := by simpa [Char.isLower] using h
  have hsub : c.toUpper.toNat = (c.toNat + ('A'.val - 'a'.val).toNat) % 2 ^ 32 := by
    rw [Char.toUpper, dif_pos hval]
    exact UInt32.toNat_add _ _
  have hoffset : ('A'.val - 'a'.val).toNat = 2 ^ 32 - 32 := by decide
  rw [isUpper_iff, hsub, hoffset]
  omega

theorem toUpper_of_isUpper (h : c.isUpper = true) : c.toUpper = c := by
  have hrange := isUpper_iff.mp h
  refine dif_neg fun hval => ?_
  have hlower := isLower_iff.mp (by simpa [Char.isLower] using hval)
  omega

/-- The first character of a name, unless it is a digit, in uppercase. -/
theorem toUpper_of_isNameChar (h : isNameChar c = true) (hdigit : c.isDigit = false) :
    c.toUpper.isUpper = true ∨ c.toUpper = '_' := by
  rw [isNameChar_iff, Char.isAlphanum, hdigit, Bool.or_false, Char.isAlpha, Bool.or_eq_true] at h
  rcases h with (hupper | hlower) | rfl
  · rw [toUpper_of_isUpper hupper]
    exact .inl hupper
  · exact .inl (isUpper_toUpper_of_isLower hlower)
  · exact .inr (by decide)

theorem Legal.append {tail : String} (h : Legal name)
    (htail : ∀ c ∈ tail.toList, isNameChar c = true) : Legal (name ++ tail) := by
  obtain ⟨first, rest, hname, hfirst, hrest⟩ := legal_iff.mp h
  refine legal_iff.mpr ⟨first, rest ++ tail.toList, ?_, hfirst, fun c hc => ?_⟩
  · rw [String.toList_append, hname, List.cons_append]
  · exact (List.mem_append.mp hc).elim (hrest c) (htail c)

theorem sanitize_legal (candidate : String) {placeholder : String} (h : Legal placeholder) :
    Legal (sanitize candidate placeholder) := by
  rw [sanitize]
  split
  · exact h
  next first rest hfilter =>
  have hchars : ∀ c ∈ first :: rest, isNameChar c = true := by
    intro c hc
    rw [← hfilter] at hc
    exact (List.mem_filter.mp hc).2
  split
  · exact h.append (by simpa using hchars)
  next hdigit =>
  refine legal_iff.mpr ⟨first.toUpper, rest, String.toList_ofList, ?_, fun c hc =>
    hchars c (List.mem_cons_of_mem first hc)⟩
  exact toUpper_of_isNameChar (hchars first List.mem_cons_self) (by simpa using hdigit)

/-- What is left of a legal name when characters are dropped at its end is legal, if anything is. -/
theorem Legal.of_append (h : Legal name) {stem dropped : List Char}
    (hname : name.toList = stem ++ dropped) (hne : stem ≠ []) : Legal (String.ofList stem) := by
  obtain ⟨first, rest, hcons, hfirst, hrest⟩ := h
  cases stem with
  | nil => exact absurd rfl hne
  | cons c stem =>
    rw [hcons, List.cons_append, List.cons.injEq] at hname
    obtain ⟨rfl, rfl⟩ := hname
    exact ⟨first, stem, String.toList_ofList, hfirst, fun d hd =>
      hrest d (List.mem_append_left dropped hd)⟩

theorem next_legal (h : Legal name) : Legal (next name) := by
  simp only [next]
  split
  · exact h.append (by simp [isNameChar])
  next hsplit =>
  -- The digits at the end are counted up, and something stands before them.
  have hname : name.toList = (name.toList.reverse.dropWhile Char.isDigit).reverse ++
      (name.toList.reverse.takeWhile Char.isDigit).reverse := by
    rw [← List.reverse_append, List.takeWhile_append_dropWhile, List.reverse_reverse]
  refine (h.of_append hname ?_).append fun c hc => ?_
  · intro hstem
    simp [hstem] at hsplit
  · rw [Nat.toString_eq_ofList_toDigits, String.toList_ofList] at hc
    exact isNameChar_of_isDigit (Nat.isDigit_of_mem_toDigits (by decide) (by decide) hc)

theorem iterate_next_legal {c : String} (h : Legal name) {attempts : Nat}
    (hc : c ∈ List.iterate next name attempts) : Legal c := by
  induction attempts generalizing name with
  | zero => exact absurd hc List.not_mem_nil
  | succ attempts ih =>
    rcases List.mem_cons.mp hc with rfl | hc
    · exact h
    · exact ih (next_legal h) hc

theorem propose_legal {candidate placeholder : String} {taken : String → Bool}
    (h : Legal placeholder) (hok : propose candidate placeholder taken = .ok name) :
    Legal name := by
  rw [propose, firstFree_eq_head?] at hok
  split at hok
  · next hhead =>
    cases hok
    exact iterate_next_legal (sanitize_legal candidate h)
      (mem_free.mp (List.mem_of_mem_head? hhead)).1
  · cases hok

end Naming

namespace Registry

variable {r r' : Registry} {name old new candidate c : String} {ty : Ty}

def ctorNames (r : Registry) : List String :=
  r.ctors.map fun e => e.2.ctor

theorem ctorNames_eq : r.ctorNames = r.types.flatMap fun t => t.variants.map Variant.ctor := by
  simp [ctorNames, ctors, List.map_flatMap, Function.comp_def]

theorem variant?_eq_none_iff_not_mem : r.variant? c = none ↔ c ∉ r.ctorNames := by
  simp [variant?_eq_none_iff, ctorNames]

/-! ## Free names -/

theorem proposeTypeName_legal (h : r.proposeTypeName candidate = .ok name) : Naming.Legal name :=
  Naming.propose_legal Naming.typePlaceholder_legal h

theorem proposeCtorName_legal {reserved : List String}
    (h : r.proposeCtorName candidate reserved = .ok c) : Naming.Legal c :=
  Naming.propose_legal Naming.constructorPlaceholder_legal h

theorem nameVariants_ok {variants named : List Variant} {reserved : List String}
    (h : r.nameVariants reserved variants = .ok named) :
    (named.map Variant.ctor).Nodup ∧ ∀ c ∈ named.map Variant.ctor,
      c ∉ r.ctorNames ∧ r.function? c = none ∧ c ∉ reserved ∧ Naming.Legal c := by
  induction variants generalizing reserved named with
  | nil =>
    cases h
    exact ⟨List.nodup_nil, fun c hc => absurd hc List.not_mem_nil⟩
  | cons v rest ih =>
    rw [nameVariants] at h
    split at h
    · cases h
    next hpropose =>
    split at h
    · cases h
    next hrest =>
    cases h
    obtain ⟨hnodup, hfree⟩ := ih hrest
    refine ⟨List.nodup_cons.mpr ⟨fun hmem => ?_, hnodup⟩, fun c hc => ?_⟩
    · exact (hfree _ hmem).2.2.1 (List.mem_append_right _ (List.mem_singleton_self _))
    · rcases List.mem_cons.mp hc with rfl | hc
      · obtain ⟨hctor, hfunction, hreserved⟩ := proposeCtorName_free hpropose
        exact ⟨variant?_eq_none_iff_not_mem.mp hctor, hfunction, hreserved,
          proposeCtorName_legal hpropose⟩
      · obtain ⟨hctor, hfunction, hreserved, hlegal⟩ := hfree c hc
        exact ⟨hctor, hfunction, fun hmem => hreserved (List.mem_append_left _ hmem), hlegal⟩

theorem ctor?_mem {owner : UserType} {k : Nat} (h : r.ctor? c = some (owner, k)) :
    owner ∈ r.types ∧ k < owner.variants.length := by
  obtain ⟨t, ht, hfound⟩ := List.exists_of_findSome?_eq_some h
  obtain ⟨j, hj, heq⟩ := Option.map_eq_some_iff.mp hfound
  cases heq
  exact ⟨ht, (List.findIdx?_eq_some_iff_getElem.mp hj).1⟩

/-! ## The invariant -/

/-- What holds of the names of types, constructors and functions. -/
structure WellNamed (r : Registry) : Prop where
  /-- No two types share a name, and none has the name of a type that is always known. -/
  types_nodup : (r.types.map UserType.name).Nodup
  types_user : ∀ name ∈ r.types.map UserType.name, name ∉ builtinTypes ∧ name ≠ listType
  types_legal : ∀ name ∈ r.types.map UserType.name, Naming.Legal name
  /-- No two constructors share a name, be they of one type or of two. -/
  ctors_nodup : r.ctorNames.Nodup
  ctors_function : ∀ c ∈ r.ctorNames, r.function? c = none
  ctors_legal : ∀ c ∈ r.ctorNames, Naming.Legal c
  /-- The functions of the prelude have the signatures they started with. -/
  prelude : ∀ f ∈ prelude, r.function? f.1 = some f.2

theorem wellNamed_withPrelude : withPrelude.WellNamed where
  types_nodup := List.nodup_nil
  types_user := fun _ h => absurd h List.not_mem_nil
  types_legal := fun _ h => absurd h List.not_mem_nil
  ctors_nodup := List.nodup_nil
  ctors_function := fun _ h => absurd h List.not_mem_nil
  ctors_legal := fun _ h => absurd h List.not_mem_nil
  prelude := by decide

namespace WellNamed

variable {t : UserType} {variant : Nat}

theorem named (h : r.WellNamed) : r.Named :=
  ⟨h.types_nodup, fun hmem => (h.types_user listType hmem).2 rfl⟩

/-- Names may go, and come from a search for a free name. -/
theorem of_names (h : r.WellNamed) (htypes : r'.Named)
    (htype : ∀ type ∈ r'.types.map UserType.name,
      type ∈ r.types.map UserType.name ∨ r.isKnownType type = false ∧ Naming.Legal type)
    (hctors : r'.ctorNames.Nodup)
    (hctor : ∀ c ∈ r'.ctorNames, c ∈ r.ctorNames ∨ r.function? c = none ∧ Naming.Legal c)
    (hnone : ∀ c, r.function? c = none → r'.function? c = none)
    (hprelude : ∀ f ∈ Registry.prelude, r.function? f.1 = some f.2 → r'.function? f.1 = some f.2) :
    r'.WellNamed where
  types_nodup := htypes.nodup
  types_user type hmem := by
    refine ⟨fun hbuiltin => ?_, fun he => htypes.list (he ▸ hmem)⟩
    rcases htype type hmem with hold | ⟨hfree, _⟩
    · exact (h.types_user type hold).1 hbuiltin
    · have hknown : r.isKnownType type = true :=
        isKnownType_iff.mpr (.inl (by simpa [isBuiltin] using hbuiltin))
      rw [hfree] at hknown
      cases hknown
  types_legal type hmem := (htype type hmem).elim (h.types_legal type) And.right
  ctors_nodup := hctors
  ctors_function c hc := hnone c ((hctor c hc).elim (h.ctors_function c) And.left)
  ctors_legal c hc := (hctor c hc).elim (h.ctors_legal c) And.right
  prelude f hf := hprelude f hf (h.prelude f hf)

theorem of_ctors (h : r.WellNamed) (hfunctions : r'.functions = r.functions)
    (hnames : r'.types.map UserType.name = r.types.map UserType.name)
    (hctors : r'.ctorNames.Nodup)
    (hctor : ∀ c ∈ r'.ctorNames, c ∈ r.ctorNames ∨ r.function? c = none ∧ Naming.Legal c) :
    r'.WellNamed := by
  have hfunction (c : String) : r'.function? c = r.function? c := by
    rw [function?, hfunctions, function?]
  refine h.of_names (h.named.of_sublist (by rw [hnames])) (fun type hmem => ?_) hctors hctor
    (fun c hc => (hfunction c).trans hc) fun f _ hf => (hfunction f.1).trans hf
  exact .inl (hnames ▸ hmem)

theorem defineFunction (h : r.WellNamed) (hok : defineFunction name ty r = .ok () r') :
    r'.WellNamed := by
  have hother {other : String} (hne : other ≠ name) : r'.function? other = r.function? other :=
    function?_defineFunction hok hne
  obtain ⟨hname, rfl⟩ := defineFunction_ok hok
  simp only [isFunctionName, Bool.and_eq_true] at hname
  obtain ⟨⟨_, hctor⟩, hprelude⟩ := hname
  refine { h with ctors_function := fun c hc => ?_, prelude := fun f hf => ?_ }
  · refine (hother fun he => ?_).trans (h.ctors_function c hc)
    have hnone : r.variant? name = none := by
      rw [← Option.not_isSome_iff_eq_none, ← ctor?_isSome, Option.not_isSome_iff_eq_none]
      simpa using hctor
    exact variant?_eq_none_iff_not_mem.mp hnone (he ▸ hc)
  · refine (hother fun he => ?_).trans (h.prelude f hf)
    have hnone := List.lookup_eq_none_iff.mp (by simpa using hprelude) f hf
    simp [he] at hnone

theorem defineType (h : r.WellNamed) {variants : List Variant}
    (hok : defineType candidate variants r = .ok name r') : r'.WellNamed := by
  have htypes := h.named.defineType hok
  obtain ⟨hpropose, added, hadded, rfl⟩ := defineType_ok hok
  obtain ⟨hnodup, hctors⟩ := nameVariants_ok hadded
  have hnames : ctorNames { r with types := r.types ++ [⟨name, added⟩] } =
      r.ctorNames ++ added.map Variant.ctor := by
    simp [ctorNames_eq]
  refine h.of_names htypes (fun type hmem => ?_) ?_ (fun c hc => ?_) (fun _ hnone => hnone)
    fun _ _ hf => hf
  · rw [List.map_append, List.mem_append] at hmem
    refine hmem.imp_right fun hnew => ?_
    obtain rfl : type = name := List.mem_singleton.mp hnew
    exact ⟨proposeTypeName_free hpropose, proposeTypeName_legal hpropose⟩
  · rw [hnames]
    refine List.nodup_append.mpr ⟨h.ctors_nodup, hnodup, fun c hc d hd he => ?_⟩
    exact (hctors d hd).1 (he ▸ hc)
  · rw [hnames, List.mem_append] at hc
    refine hc.imp_right fun hnew => ?_
    obtain ⟨_, hfunction, _, hlegal⟩ := hctors c hnew
    exact ⟨hfunction, hlegal⟩

theorem ctorNames_mapFields (f : Ty → Option Ty) : (r.mapFields f).ctorNames = r.ctorNames := by
  simp [ctorNames_eq, mapFields, List.flatMap_map, Function.comp_def]

theorem renameType (h : r.WellNamed) (hok : renameType old candidate r = .ok new r') :
    r'.WellNamed := by
  rcases renameType_ok hok with ⟨_, rfl⟩ | ⟨_, _, hpropose, rfl⟩
  · exact h
  have hfree := proposeTypeName_free hpropose
  have hnames : (r.renamed old new).ctorNames = r.ctorNames := by
    simp [ctorNames_eq, Registry.renamed, renamedType, List.flatMap_map, Function.comp_def]
  refine h.of_names (h.named.renamed hfree) (fun type hmem => ?_) (hnames ▸ h.ctors_nodup)
    (fun c hc => .inl (hnames ▸ hc)) (fun c hnone => ?_) fun f hf hsome => ?_
  · obtain ⟨u, hu, rfl⟩ := List.mem_map.mp hmem
    obtain ⟨t, ht, rfl⟩ := List.mem_map.mp hu
    by_cases hold : t.name = old
    · simp only [renamedType, if_pos hold]
      exact .inr ⟨hfree, proposeTypeName_legal hpropose⟩
    · simp only [renamedType, if_neg hold]
      exact .inl (List.mem_map_of_mem ht)
  · rw [function?_renamed, hnone, Option.map_none]
  · -- The signatures of the prelude mention no type.
    have hfixed : f.2.renameLiteral old new = f.2 := by
      simp only [Registry.prelude, List.mem_cons, List.not_mem_nil, or_false] at hf
      rcases hf with rfl | rfl | rfl <;> rfl
    rw [function?_renamed, hsome, Option.map_some, hfixed]

theorem without (h : r.WellNamed) (name : String) : (r.without name).WellNamed := by
  have hsub : List.Sublist (r.without name).types r.types := List.filter_sublist
  have hctors : List.Sublist (r.without name).ctorNames r.ctorNames := by
    rw [ctorNames_eq, ctorNames_eq]
    exact hsub.flatMap _
  exact h.of_names (h.named.of_sublist (hsub.map _))
    (fun type hmem => .inl ((hsub.map UserType.name).subset hmem)) (h.ctors_nodup.sublist hctors)
    (fun c hc => .inl (hctors.subset hc)) (fun _ hnone => hnone) fun _ _ hf => hf

theorem deleteType (h : r.WellNamed) (hok : deleteType name r = .ok t r') : r'.WellNamed := by
  obtain ⟨_, rfl⟩ := deleteType_ok hok
  have hkept := h.without name
  refine hkept.of_ctors rfl ?_ ?_ fun c hc => .inl ?_
  · simp [mapFields, Registry.without]
  · rw [ctorNames_mapFields]
    exact hkept.ctors_nodup
  · rwa [ctorNames_mapFields] at hc

/-- The constructors of one type stand together, and a change of that type leaves the others. -/
theorem ctorNames_modifyType (h : r.WellNamed) (ht : t ∈ r.types) :
    ∃ before after, r.ctorNames = before ++ t.variants.map Variant.ctor ++ after ∧
      ∀ f : UserType → UserType, (r.modifyType t.name f).ctorNames =
        before ++ (f t).variants.map Variant.ctor ++ after := by
  obtain ⟨before, after, hsplit⟩ := List.append_of_mem ht
  have hnodup := h.types_nodup
  rw [hsplit, List.map_append, List.map_cons, List.nodup_middle, List.nodup_cons,
    ← List.map_append] at hnodup
  -- The other types have other names, so a change under this name does not reach them.
  have hother : ∀ (f : UserType → UserType) (u : UserType), u ∈ before ∨ u ∈ after →
      (if u.name = t.name then f u else u) = u := by
    intro f u hu
    rw [if_neg]
    intro he
    exact hnodup.1 (List.mem_map.mpr ⟨u, List.mem_append.mpr hu, he⟩)
  refine ⟨before.flatMap fun t => t.variants.map Variant.ctor,
    after.flatMap fun t => t.variants.map Variant.ctor, ?_, fun f => ?_⟩
  · simp [ctorNames_eq, hsplit]
  · have hbefore : (before.map fun u => if u.name = t.name then f u else u) = before :=
      (List.map_congr_left fun u hu => hother f u (.inl hu)).trans (List.map_id _)
    have hafter : (after.map fun u => if u.name = t.name then f u else u) = after :=
      (List.map_congr_left fun u hu => hother f u (.inr hu)).trans (List.map_id _)
    rw [ctorNames_eq, modifyType, hsplit, List.map_append, List.map_cons, hbefore, hafter]
    simp

theorem map_ctor_modify (variants : List Variant) (k : Nat) (c : String) :
    (variants.modify k fun v => { v with ctor := c }).map Variant.ctor =
      (variants.map Variant.ctor).set k c := by
  refine List.ext_getElem (by simp) fun i _ _ => ?_
  rw [List.getElem_map, List.getElem_modify, List.getElem_set, List.getElem_map]
  split
  · rfl
  · rfl

theorem renameCtor (h : r.WellNamed) (hok : renameCtor old candidate r = .ok new r') :
    r'.WellNamed := by
  rcases renameCtor_ok hok with ⟨_, rfl⟩ | ⟨owner, k, hctor, hpropose, rfl⟩
  · exact h
  obtain ⟨hfree, hfunction, _⟩ := proposeCtorName_free hpropose
  obtain ⟨before, after, hctors, hmodify⟩ := h.ctorNames_modifyType (ctor?_mem hctor).1
  -- In the list of all constructors, one name gives way to a free one.
  have hset : ∃ m, before ++ (owner.variants.modify k fun v => { v with ctor := new }).map
      Variant.ctor ++ after = r.ctorNames.set m new := by
    have hlt := (ctor?_mem hctor).2
    refine ⟨before.length + k, ?_⟩
    rw [hctors, map_ctor_modify, List.set_append_left, List.set_append_right]
    · simp
    · exact Nat.le_add_right _ _
    · simpa using hlt
  obtain ⟨m, hset⟩ := hset
  refine h.of_ctors rfl (names_modifyType fun _ => rfl) ?_ fun c hc => ?_
  · rw [hmodify, hset]
    exact h.ctors_nodup.set (variant?_eq_none_iff_not_mem.mp hfree)
  · rw [hmodify, hset] at hc
    refine (List.mem_or_eq_of_mem_set hc).imp_right ?_
    rintro rfl
    exact ⟨hfunction, proposeCtorName_legal hpropose⟩

theorem takeVariants (h : r.WellNamed) (ht : t ∈ r.types) (count : Nat) :
    (r.modifyType t.name fun t => { t with variants := t.variants.take count }).WellNamed := by
  obtain ⟨before, after, hctors, hmodify⟩ := h.ctorNames_modifyType ht
  have hsub : List.Sublist (before ++ (t.variants.take count).map Variant.ctor ++ after)
      r.ctorNames := by
    rw [hctors]
    exact (((List.take_sublist count t.variants).map Variant.ctor).append_left before).append_right
      after
  refine h.of_ctors rfl (names_modifyType fun _ => rfl) ?_ fun c hc => .inl ?_
  · rw [hmodify]
    exact h.ctors_nodup.sublist hsub
  · rw [hmodify] at hc
    exact hsub.subset hc

theorem withVariants (h : r.WellNamed) (ht : t ∈ r.types) {added : List String}
    (hadded : added.Sublist r.spareNames) : (r.withVariants t.name added).WellNamed := by
  obtain ⟨before, after, hctors, hmodify⟩ := h.ctorNames_modifyType ht
  have hperm : (r.withVariants t.name added).ctorNames.Perm (added ++ r.ctorNames) := by
    rw [Registry.withVariants, hmodify, hctors, List.perm_iff_count]
    intro c
    have hmap : (added.map fun ctor => (⟨ctor, []⟩ : Variant)).map Variant.ctor = added := by
      simp [Function.comp_def]
    simp only [UserType.grow, List.map_append, hmap, List.count_append]
    omega
  refine h.of_ctors rfl (names_modifyType fun _ => rfl) ?_ fun c hc => ?_
  · rw [hperm.nodup_iff]
    refine List.nodup_append.mpr ⟨r.spareNames_nodup.sublist hadded, h.ctors_nodup, ?_⟩
    rintro c hc d hd rfl
    exact variant?_eq_none_iff_not_mem.mp (spareNames_unused (hadded.subset hc)).1 hd
  · rw [hperm.mem_iff, List.mem_append] at hc
    refine hc.symm.imp_right fun hc => ?_
    have hspare := hadded.subset hc
    exact ⟨(spareNames_unused hspare).2,
      Naming.iterate_next_legal Naming.constructorPlaceholder_legal (Naming.mem_free.mp hspare).1⟩

theorem editVariant (h : r.WellNamed) {f : Variant → Except EditError Variant}
    (hf : ∀ v v', f v = .ok v' → v'.ctor = v.ctor)
    (hok : editVariant name variant f r = .ok () r') : r'.WellNamed := by
  obtain ⟨t, v, v', ht, hv, hv', rfl⟩ := editVariant_ok hok
  obtain rfl := userType?_name ht
  obtain ⟨before, after, hctors, hmodify⟩ :=
    h.ctorNames_modifyType (List.mem_of_find?_eq_some ht)
  have hset : (t.variants.set variant v').map Variant.ctor = t.variants.map Variant.ctor := by
    obtain ⟨hlt, rfl⟩ := List.getElem?_eq_some_iff.mp hv
    rw [List.map_set, hf _ v' hv', ← List.getElem_map Variant.ctor (h := by simpa using hlt),
      List.set_getElem_self]
  have hsame : (r.modifyType t.name fun t =>
      { t with variants := t.variants.set variant v' }).ctorNames = r.ctorNames := by
    rw [hmodify, hset, hctors]
  exact h.of_ctors rfl (names_modifyType fun _ => rfl) (hsame ▸ h.ctors_nodup)
    fun c hc => .inl (hsame ▸ hc)

theorem setFieldCount (h : r.WellNamed) {count : Nat}
    (hok : setFieldCount name variant count r = .ok () r') : r'.WellNamed :=
  h.editVariant (fun _ _ => setFieldCount_ctor) hok

theorem setFieldType (h : r.WellNamed) {field : Nat} {new : Option Ty}
    (hok : setFieldType name variant field new r = .ok () r') : r'.WellNamed :=
  h.editVariant (fun _ _ => setFieldType_ctor) hok

end WellNamed

/-! ## Every sequence of edits -/

/-- The registry that an edit leaves behind, be it refused or not. -/
def after {α : Type} (edit : Edit α) (r : Registry) : Registry :=
  match edit r with
  | .ok _ r' => r'
  | .error _ r' => r'

theorem WellNamed.after {α : Type} {edit : Edit α} (h : r.WellNamed) (hatomic : Atomic edit)
    (hok : ∀ a r', edit r = .ok a r' → r'.WellNamed) : (after edit r).WellNamed := by
  rw [Registry.after]
  split
  · next a r' hrun => exact hok a r' hrun
  · next e r' hrun =>
    rw [hatomic r e r' hrun]
    exact h

/-- A number of variants that cannot be reached leaves a type that has grown as far as possible. -/
theorem WellNamed.after_setVariantCount (h : r.WellNamed) (name : String) (count : Nat) :
    (Registry.after (setVariantCount name count) r).WellNamed := by
  rw [Registry.after]
  cases ht : r.userType? name with
  | none =>
    rw [setVariantCount_unknown ht]
    exact h
  | some t =>
    have hmem := List.mem_of_find?_eq_some ht
    obtain rfl := userType?_name ht
    rw [setVariantCount_eq ht]
    split
    · next hrun =>
      split at hrun
      · cases hrun
        exact h.takeVariants hmem count
      split at hrun
      · cases hrun
        exact h.withVariants hmem (List.take_sublist _ _)
      · cases hrun
    · next hrun =>
      split at hrun
      · cases hrun
      split at hrun
      · cases hrun
      · cases hrun
        exact h.withVariants hmem (List.Sublist.refl _)

/-- A request to change the registry. -/
inductive Request where
  | defineType (candidate : String) (variants : List Variant)
  | defineFunction (name : String) (ty : Ty)
  | renameType (old candidate : String)
  | renameCtor (old candidate : String)
  | deleteType (name : String)
  | setVariantCount (name : String) (count : Nat)
  | setFieldCount (name : String) (variant count : Nat)
  | setFieldType (name : String) (variant field : Nat) (ty : Option Ty)
  | clear

/-- What a request makes of a registry, be it granted or not. -/
def Request.run : Request → Registry → Registry
  | defineType candidate variants => after (Registry.defineType candidate variants)
  | defineFunction name ty => after (Registry.defineFunction name ty)
  | renameType old candidate => after (Registry.renameType old candidate)
  | renameCtor old candidate => after (Registry.renameCtor old candidate)
  | deleteType name => after (Registry.deleteType name)
  | setVariantCount name count => after (Registry.setVariantCount name count)
  | setFieldCount name variant count => after (Registry.setFieldCount name variant count)
  | setFieldType name variant field ty => after (Registry.setFieldType name variant field ty)
  | clear => after Registry.clear

theorem WellNamed.run (h : r.WellNamed) (request : Request) : (request.run r).WellNamed := by
  cases request with
  | defineType candidate variants =>
    exact h.after (defineType_atomic candidate variants) fun _ _ hok => h.defineType hok
  | defineFunction name ty =>
    exact h.after (defineFunction_atomic ty) fun _ _ hok => h.defineFunction hok
  | renameType old candidate =>
    exact h.after (renameType_atomic old candidate) fun _ _ hok => h.renameType hok
  | renameCtor old candidate =>
    exact h.after (renameCtor_atomic old candidate) fun _ _ hok => h.renameCtor hok
  | deleteType name => exact h.after (deleteType_atomic name) fun _ _ hok => h.deleteType hok
  | setVariantCount name count => exact h.after_setVariantCount name count
  | setFieldCount name variant count =>
    exact h.after (editVariant_atomic _ _) fun _ _ hok => h.setFieldCount hok
  | setFieldType name variant field ty =>
    exact h.after (editVariant_atomic _ _) fun _ _ hok => h.setFieldType hok
  | clear => exact wellNamed_withPrelude

/-- Whatever is asked of a registry that starts with the prelude, its names stay apart. -/
theorem wellNamed_of_requests (requests : List Request) :
    (requests.foldl (fun r request => request.run r) withPrelude).WellNamed := by
  suffices h : ∀ r : Registry, r.WellNamed →
      (requests.foldl (fun r request => request.run r) r).WellNamed from
    h withPrelude wellNamed_withPrelude
  induction requests with
  | nil => exact fun r h => h
  | cons request rest ih => exact fun r h => ih (request.run r) (h.run request)

end Registry
end BlockGraph
