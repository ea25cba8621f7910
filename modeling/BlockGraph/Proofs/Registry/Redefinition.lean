import BlockGraph.Proofs.Registry.FreeNames

/-!
# Types that are removed and defined again

A type that no other type mentions can be taken out of the registry and put back.  Its
name and the names of its constructors are free while it is gone, so it gets them
again.  It then stands behind the other types, which makes no difference to what is
found under a name.

While it is gone, no signature is found for a block that depends on it.  Afterwards
every block has the signature that it had.
-/

namespace BlockGraph

namespace Registry

variable {r : Registry} {t u : UserType} {name type c : String} {e : String × Variant}

theorem Named.userType? (h : r.Named) (ht : t ∈ r.types) : r.userType? t.name = some t := by
  obtain ⟨u, hu⟩ := Option.isSome_iff_exists.mp (userType?_isSome_iff.mpr (List.mem_map_of_mem ht))
  rw [hu, h.eq_of_name (List.mem_of_find?_eq_some hu) ht (userType?_name hu)]

/-! ## Without the type -/

theorem not_mem_names_without (r : Registry) (name : String) :
    name ∉ (r.without name).types.map UserType.name := by
  simp [without]

theorem userType?_without_self (r : Registry) (name : String) :
    (r.without name).userType? name = none := by
  rw [← Option.not_isSome_iff_eq_none, userType?_isSome_iff]
  exact not_mem_names_without r name

theorem isKnownType_without (h : r.WellNamed) (ht : t ∈ r.types) :
    (r.without t.name).isKnownType t.name = false := by
  obtain ⟨hbuiltin, hlist⟩ := h.types_user t.name (List.mem_map_of_mem ht)
  refine Bool.eq_false_iff.mpr fun hknown => ?_
  rcases isKnownType_iff.mp hknown with hmem | hmem | hmem
  · exact hbuiltin (by simpa [isBuiltin] using hmem)
  · exact hlist hmem
  · exact not_mem_names_without r t.name hmem

/-- A type that no other type mentions is taken out, and the others stay as they are. -/
theorem deleteType_of_unmentioned (h : r.Named) (ht : t ∈ r.types)
    (hfields : ∀ u ∈ r.types, u.name ≠ t.name → Workspace.fieldMentions t.name u = false) :
    deleteType t.name r = .ok t (r.without t.name) := by
  have hkept : (r.without t.name).mapFields
      (fun ty => if ty.mentions t.name then none else some ty) = r.without t.name := by
    rw [mapFields, without]
    congr 1
    refine (List.map_congr_left fun u hu => ?_).trans (List.map_id _)
    obtain ⟨hu, hne⟩ := List.mem_filter.mp hu
    exact unset_of_unmentioned (hfields u hu (by simpa using hne))
  simp only [deleteType, editType, h.userType? ht]
  exact congrArg (EStateM.Result.ok t) hkept

/-! ## Free names -/

/-- Constructors keep legal names that are free and differ from each other. -/
theorem nameVariants_of_free {variants : List Variant} {reserved : List String}
    (hnodup : (variants.map Variant.ctor).Nodup)
    (hfree : ∀ c ∈ variants.map Variant.ctor,
      r.variant? c = none ∧ r.function? c = none ∧ c ∉ reserved ∧ Naming.Legal c) :
    r.nameVariants reserved variants = .ok variants := by
  induction variants generalizing reserved with
  | nil => rfl
  | cons v rest ih =>
    obtain ⟨hv, hnodup⟩ := List.nodup_cons.mp hnodup
    obtain ⟨hctor, hfunction, hreserved, hlegal⟩ := hfree v.ctor List.mem_cons_self
    have hname : r.proposeCtorName v.ctor reserved = .ok v.ctor := by
      refine Naming.propose_of_legal hlegal ?_
      rw [ctor?_isSome, hctor, hfunction]
      simpa using hreserved
    have hrest : r.nameVariants (reserved ++ [v.ctor]) rest = .ok rest := by
      refine ih hnodup fun c hc => ?_
      obtain ⟨hctor, hfunction, hreserved, hlegal⟩ := hfree c (List.mem_cons_of_mem _ hc)
      refine ⟨hctor, hfunction, fun hmem => ?_, hlegal⟩
      rcases List.mem_append.mp hmem with hmem | hmem
      · exact hreserved hmem
      · exact hv (List.mem_singleton.mp hmem ▸ hc)
    rw [nameVariants]
    simp only [hname, hrest]

theorem WellNamed.eq_of_ctor (h : r.WellNamed) {e' : String × Variant} (he : e ∈ r.ctors)
    (he' : e' ∈ r.ctors) (hctor : e.2.ctor = e'.2.ctor) : e = e' :=
  List.inj_on_of_nodup_map h.ctors_nodup he he' hctor

theorem WellNamed.variant? (h : r.WellNamed) (he : e ∈ r.ctors) : r.variant? e.2.ctor = some e := by
  obtain ⟨e', he'⟩ := Option.isSome_iff_exists.mp (variant?_isSome_iff.mpr ⟨e, he, rfl⟩)
  rw [he', h.eq_of_ctor (variant?_mem he').1 he (variant?_mem he').2]

theorem ctor_free (h : r.WellNamed) (ht : t ∈ r.types) (hc : c ∈ t.variants.map Variant.ctor) :
    (r.without t.name).variant? c = none ∧ r.function? c = none ∧ Naming.Legal c := by
  obtain ⟨v, hv, rfl⟩ := List.mem_map.mp hc
  have he : (t.name, v) ∈ r.ctors := mem_ctors.mpr ⟨t, ht, rfl, hv⟩
  have hmem : v.ctor ∈ r.ctorNames := List.mem_map.mpr ⟨_, he, rfl⟩
  refine ⟨variant?_eq_none_iff.mpr fun e' he' hctor => ?_, h.ctors_function _ hmem,
    h.ctors_legal _ hmem⟩
  obtain ⟨u, hu, hname, hw⟩ := mem_ctors.mp he'
  have hu' := (List.mem_filter.mp hu).1
  have heq := h.eq_of_ctor (mem_ctors.mpr ⟨u, hu', hname, hw⟩) he hctor
  refine not_mem_names_without r t.name (List.mem_map.mpr ⟨u, hu, ?_⟩)
  rw [hname, heq]

/-! ## The type again -/

/-- The registry with a type put back, behind the other types. -/
def redefined (r : Registry) (t : UserType) : Registry :=
  { r with types := (r.without t.name).types ++ [t] }

theorem defineType_redefined (h : r.WellNamed) (ht : t ∈ r.types) :
    defineType t.name t.variants (r.without t.name) = .ok t.name (r.redefined t) := by
  have hname := proposeTypeName_of_legal (h.types_legal t.name (List.mem_map_of_mem ht))
    (isKnownType_without h ht)
  have hnamed : (r.without t.name).nameVariants [] t.variants = .ok t.variants := by
    refine nameVariants_of_free ?_ fun c hc => ?_
    · exact (List.nodup_flatMap.mp (ctorNames_eq ▸ h.ctors_nodup)).1 t ht
    · obtain ⟨hctor, hfunction, hlegal⟩ := ctor_free h ht hc
      exact ⟨hctor, hfunction, List.not_mem_nil, hlegal⟩
  unfold defineType
  simp only [hname, hnamed]
  rfl

theorem userType?_redefined (h : r.Named) (ht : t ∈ r.types) (type : String) :
    (r.redefined t).userType? type = r.userType? type := by
  have happend : (r.redefined t).userType? type =
      ((r.without t.name).userType? type).or ([t].find? fun u => u.name = type) :=
    List.find?_append
  rw [happend]
  by_cases htype : type = t.name
  · subst htype
    rw [userType?_without_self, h.userType? ht]
    simp
  · have hother : ([t].find? fun u => u.name = type) = none := by
      simpa using fun he => htype he.symm
    rw [userType?_without htype, hother, Option.or_none]

theorem variant?_redefined (h : r.WellNamed) (ht : t ∈ r.types) (he : r.variant? c = some e) :
    (r.redefined t).variant? c = some e := by
  obtain ⟨hmem, rfl⟩ := variant?_mem he
  obtain ⟨u, hu, hname, hv⟩ := mem_ctors.mp hmem
  refine ((h.without t.name).defineType (defineType_redefined h ht)).variant?
    (mem_ctors.mpr ⟨u, ?_, hname, hv⟩)
  by_cases howner : u.name = t.name
  · rw [h.named.eq_of_name hu ht howner]
    exact List.mem_append_right _ (List.mem_singleton_self _)
  · exact List.mem_append_left _ (List.mem_filter.mpr ⟨hu, by simpa using howner⟩)

end Registry

namespace Block

variable {r : Registry} {t : UserType} {block : Block}

/-- No signature is found for what depends on the type while it is gone. -/
theorem derive_without (h : r.WellNamed) (ht : t ∈ r.types)
    (hdep : block.dependsOn r t.name = true) (s : Supply) :
    ∃ fault, block.derive (r.without t.name) s = .error fault := by
  have hunknown : ∀ ty : Ty, ty.mentions t.name = true →
      ¬ ∀ type ∈ ty.literalNames, (r.without t.name).isKnownType type = true := by
    intro ty hmentions hknown
    have hname := hknown t.name (by simpa [TyTerm.mentions] using hmentions)
    rw [Registry.isKnownType_without h ht] at hname
    cases hname
  have hmissing : ¬ block.Known (r.without t.name) := by
    intro hknown
    cases block with
    | literal ty value => exact hunknown ty hdep hknown
    | function name =>
      obtain ⟨ty, hty, htypes⟩ := hknown
      have hty : r.function? name = some ty := hty
      simp only [dependsOn, hty, Option.any_some] at hdep
      exact hunknown ty hdep htypes
    | ctor c =>
      rw [dependsOn, Registry.ctor?_any fun owner => owner = t.name] at hdep
      obtain ⟨e, he, howner⟩ := (Option.any_eq_true _ _).mp hdep
      obtain ⟨hmem, hc⟩ := Registry.variant?_mem he
      obtain ⟨u, hu, hname, hv⟩ := Registry.mem_ctors.mp hmem
      obtain rfl := h.named.eq_of_name hu ht (hname.trans (by simpa using howner))
      have hfree := (Registry.ctor_free h ht (List.mem_map.mpr ⟨e.2, hv, hc⟩)).1
      rw [Known, hfree] at hknown
      cases hknown
    | caseOf type binders =>
      obtain rfl : type = t.name := by simpa [dependsOn] using hdep
      exact Registry.not_mem_names_without r t.name hknown
    | list items => cases hdep
    | localVar name => cases hdep
  cases hderive : block.derive (r.without t.name) s with
  | error fault => exact ⟨fault, rfl⟩
  | ok x => exact absurd (derive_eq_ok_iff.mp ⟨x, hderive⟩) hmissing

theorem syncBinders_without (hdep : block.dependsOn r t.name = true) :
    block.syncBinders (r.without t.name) = block := by
  cases block with
  | caseOf type binders =>
    obtain rfl : type = t.name := by simpa [dependsOn] using hdep
    rw [syncBinders, Registry.userType?_without_self]
  | _ => rfl

theorem entriesKept_redefined (h : r.WellNamed) (ht : t ∈ r.types) :
    block.EntriesKept r (r.redefined t) := by
  have hknown : ∀ type, r.isKnownType type = true → (r.redefined t).isKnownType type = true := by
    intro type hknown
    rwa [Registry.isKnownType, Registry.userType?_redefined h.named ht]
  cases block with
  | literal ty value => exact fun type _ => hknown type
  | function name => exact fun ty hty => ⟨hty, fun type _ => hknown type⟩
  | ctor c => exact fun e => Registry.variant?_redefined h ht
  | caseOf type binders =>
    exact fun u hu => ⟨u, (Registry.userType?_redefined h.named ht type).trans hu, rfl⟩
  | list items => trivial
  | localVar name => trivial

end Block

end BlockGraph
