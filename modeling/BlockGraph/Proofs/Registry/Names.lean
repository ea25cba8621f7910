import BlockGraph.Proofs.Workspace.Renaming

/-!
# What edits do to names

Which types are known is a matter of the names in the list of types, and a
constructor is looked up in the list of all constructors.  For each edit of the
registry there is a lemma that says what the registry is after it, and what has been
checked before.  From these follow the invariants of the registry: no two types share a
name, none is called as the type of lists, and every variable of a definition has been
handed out by the supply.
-/

namespace BlockGraph
namespace Registry

variable {r r' : Registry} {name old new candidate type c : String} {ty : Ty} {s s' : Supply}
  {count variant : Nat} {dropped : List String} {e : String × Variant} {f : UserType → UserType}
  {t : UserType} {v : Variant}

/-! ## Looking up -/

theorem userType?_isSome_iff : (r.userType? type).isSome ↔ type ∈ r.types.map UserType.name := by
  simp [userType?, List.find?_isSome]

theorem isKnownType_iff :
    r.isKnownType type = true ↔
      isBuiltin type = true ∨ type = listType ∨ type ∈ r.types.map UserType.name := by
  rw [isKnownType, Bool.or_eq_true, Bool.or_eq_true, decide_eq_true_eq, or_assoc,
    userType?_isSome_iff]

theorem isKnownType_mono (h : type ∈ r.types.map UserType.name → type ∈ r'.types.map UserType.name)
    (hknown : r.isKnownType type = true) : r'.isKnownType type = true :=
  isKnownType_iff.mpr ((isKnownType_iff.mp hknown).imp_right (Or.imp_right h))

theorem not_known (h : r.isKnownType type = false) :
    type ≠ listType ∧ type ∉ r.types.map UserType.name := by
  rw [← Bool.not_eq_true, isKnownType_iff, not_or, not_or] at h
  exact h.2

theorem mem_ctors : e ∈ r.ctors ↔ ∃ t ∈ r.types, t.name = e.1 ∧ e.2 ∈ t.variants := by
  obtain ⟨owner, v⟩ := e
  simp only [ctors, List.mem_flatMap, List.mem_map, Prod.mk.injEq]
  constructor
  · rintro ⟨t, ht, v', hv', rfl, rfl⟩
    exact ⟨t, ht, rfl, hv'⟩
  · rintro ⟨t, ht, rfl, hv⟩
    exact ⟨t, ht, v, hv, rfl, rfl⟩

theorem variant?_eq_find : r.variant? c = r.ctors.find? fun e => e.2.ctor = c := by
  rw [variant?, ctor?, ctors, List.find?_flatMap]
  induction r.types with
  | nil => rfl
  | cons t rest ih =>
    rw [List.findSome?_cons, List.findSome?_cons, List.find?_map]
    have hfind := @List.find?_eq_bind_findIdx?_getElem? _ t.variants fun v => decide (v.ctor = c)
    cases hidx : t.variants.findIdx? fun v => decide (v.ctor = c) with
    | none =>
      rw [hidx, Option.bind_none] at hfind
      simp only [Function.comp_def, hfind, Option.map_none]
      exact ih
    | some k =>
      rw [hidx, Option.bind_some] at hfind
      obtain ⟨hk, _⟩ := List.findIdx?_eq_some_iff_getElem.mp hidx
      rw [List.getElem?_eq_getElem hk] at hfind
      simp only [Function.comp_def, hfind, List.getElem?_eq_getElem hk, Option.map_some,
        Option.bind_some]

theorem variant?_isSome_iff : (r.variant? c).isSome ↔ ∃ e ∈ r.ctors, e.2.ctor = c := by
  simp [variant?_eq_find, List.find?_isSome]

theorem variant?_eq_none_iff : r.variant? c = none ↔ ∀ e ∈ r.ctors, e.2.ctor ≠ c := by
  simp [variant?_eq_find, List.find?_eq_none]

theorem variant?_mem (h : r.variant? c = some e) : e ∈ r.ctors ∧ e.2.ctor = c := by
  rw [variant?_eq_find] at h
  exact ⟨List.mem_of_find?_eq_some h, by simpa using List.find?_some h⟩

theorem ctor?_any (p : String → Bool) :
    ((r.ctor? c).any fun x => p x.1.name) = (r.variant? c).any fun e => p e.1 := by
  rw [variant?]
  cases hctor : r.ctor? c with
  | none => rfl
  | some x =>
    obtain ⟨t, k⟩ := x
    obtain ⟨u, _, hu⟩ := List.exists_of_findSome?_eq_some hctor
    obtain ⟨j, hj, heq⟩ := Option.map_eq_some_iff.mp hu
    cases heq
    obtain ⟨hk, _⟩ := List.findIdx?_eq_some_iff_getElem.mp hj
    simp only [Option.any_some, Option.bind_some, List.getElem?_eq_getElem hk, Option.map_some]

theorem ctor?_isSome : (r.ctor? c).isSome = (r.variant? c).isSome := by
  have h := ctor?_any (r := r) (c := c) fun _ => true
  cases hctor : r.ctor? c <;> cases hvariant : r.variant? c <;> simp_all

/-! ## Changed types -/

theorem names_modifyType (hf : ∀ t, (f t).name = t.name) :
    (r.modifyType name f).types.map UserType.name = r.types.map UserType.name := by
  rw [modifyType, List.map_map]
  refine List.map_congr_left fun t _ => ?_
  simp only [Function.comp]
  split
  · exact hf t
  · rfl

theorem mem_ctors_modifyType (hf : ∀ t, (f t).name = t.name)
    (he : e ∈ (r.modifyType name f).ctors) :
    e ∈ r.ctors ∨ ∃ t ∈ r.types, t.name = name ∧ e.1 = name ∧ e.2 ∈ (f t).variants := by
  obtain ⟨t', ht', hname, hv⟩ := mem_ctors.mp he
  obtain ⟨t, ht, rfl⟩ := List.mem_map.mp ht'
  by_cases htn : t.name = name
  · rw [if_pos htn] at hname hv
    exact .inr ⟨t, ht, htn, by rw [← hname, hf, htn], hv⟩
  · rw [if_neg htn] at hname hv
    exact .inl (mem_ctors.mpr ⟨t, ht, hname, hv⟩)

/-- A constructor of another type is found as before, if the changed type does not get its name. -/
theorem variant?_modifyType (hvariant : r.variant? c = some e) (hne : e.1 ≠ name)
    (hnew : ∀ t ∈ r.types, t.name = name → (∀ v ∈ t.variants, v.ctor ≠ c) →
      ∀ v ∈ (f t).variants, v.ctor ≠ c) : (r.modifyType name f).variant? c = some e := by
  rw [variant?_eq_find, ctors, List.find?_flatMap] at hvariant ⊢
  rw [modifyType, List.findSome?_map]
  obtain ⟨before, t, after, htypes, hfound, hbefore⟩ := List.findSome?_eq_some_iff.mp hvariant
  have hname : t.name = e.1 := by
    obtain ⟨v, _, rfl⟩ := List.mem_map.mp (List.mem_of_find?_eq_some hfound)
    rfl
  refine List.findSome?_eq_some_iff.mpr ⟨before, t, after, htypes, ?_, fun u hu => ?_⟩
  · rw [Function.comp_apply, if_neg (hname ▸ hne), hfound]
  · have hnone := hbefore u hu
    rw [Function.comp_apply]
    split
    · next hun =>
      simp only [List.find?_eq_none, List.mem_map, forall_exists_index, and_imp, decide_eq_true_eq,
        forall_apply_eq_imp_iff₂] at hnone ⊢
      refine hnew u ?_ hun hnone
      rw [htypes]
      exact List.mem_append_left _ hu
    · exact hnone

/-! ## What each edit does -/

theorem proposeTypeName_free (h : r.proposeTypeName candidate = .ok name) :
    r.isKnownType name = false :=
  Naming.propose_not_taken h

theorem proposeCtorName_free {reserved : List String}
    (h : r.proposeCtorName candidate reserved = .ok c) :
    r.variant? c = none ∧ r.function? c = none ∧ c ∉ reserved := by
  have hfree := Naming.propose_not_taken h
  rw [Bool.or_eq_false_iff, Bool.or_eq_false_iff, ctor?_isSome] at hfree
  obtain ⟨⟨hctor, hfunction⟩, hreserved⟩ := hfree
  exact ⟨by simpa using hctor, by simpa using hfunction, by simpa using hreserved⟩

theorem defineFunction_ok (h : defineFunction name ty r = .ok () r') :
    r.isFunctionName name = true ∧
      r' = { r with functions := (name, ty) :: r.functions.filter fun f => f.1 ≠ name } := by
  rw [defineFunction] at h
  split at h
  · next hname =>
    cases h
    exact ⟨hname, rfl⟩
  · cases h

theorem nameVariants_fields {variants named : List Variant} {reserved : List String}
    (h : r.nameVariants reserved variants = .ok named) (hv : v ∈ named) :
    ∃ v' ∈ variants, v.fields = v'.fields := by
  induction variants generalizing reserved named with
  | nil =>
    cases h
    exact absurd hv List.not_mem_nil
  | cons v' rest ih =>
    rw [nameVariants] at h
    split at h
    · cases h
    split at h
    · cases h
    next hrest =>
    cases h
    rcases List.mem_cons.mp hv with rfl | hv
    · exact ⟨v', List.mem_cons_self, rfl⟩
    · obtain ⟨v'', hv'', hfields⟩ := ih hrest hv
      exact ⟨v'', List.mem_cons_of_mem v' hv'', hfields⟩

theorem defineType_ok {variants : List Variant}
    (h : defineType candidate variants r = .ok name r') :
    r.proposeTypeName candidate = .ok name ∧ ∃ named, r.nameVariants [] variants = .ok named ∧
      r' = { r with types := r.types ++ [⟨name, named⟩] } := by
  unfold defineType at h
  split at h
  · cases h
  next hpropose =>
  split at h
  · cases h
  next named hnamed =>
  cases h
  exact ⟨hpropose, named, hnamed, rfl⟩

/-- The type with another name for a user type, in its fields too. -/
def renamedType (old new : String) (t : UserType) : UserType where
  name := if t.name = old then new else t.name
  variants := t.variants.map fun v =>
    { v with fields := v.fields.map (Option.map (TyTerm.renameLiteral old new)) }

/-- The registry with another name for a user type wherever it stands. -/
def renamed (old new : String) (r : Registry) : Registry where
  types := r.types.map (renamedType old new)
  functions := r.functions.map fun f => (f.1, f.2.renameLiteral old new)

theorem renameType_ok (h : renameType old candidate r = .ok new r') :
    (new = old ∧ r' = r) ∨
      (new ≠ old ∧ old ∈ r.types.map UserType.name ∧ r.proposeTypeName candidate = .ok new ∧
        r' = r.renamed old new) := by
  simp only [renameType, editType] at h
  split at h
  · cases h
  next t hold =>
  split at h
  · cases h
    exact .inl ⟨rfl, rfl⟩
  split at h
  · cases h
  next hpropose =>
  cases h
  have hmem : old ∈ r.types.map UserType.name :=
    userType?_isSome_iff.mp (Option.isSome_iff_exists.mpr ⟨t, hold⟩)
  refine .inr ⟨?_, hmem, hpropose, ?_⟩
  · rintro rfl
    exact (not_known (proposeTypeName_free hpropose)).2 hmem
  · have hfield : (fun field : Option Ty => field.bind fun ty => some (ty.renameLiteral old new)) =
        Option.map (TyTerm.renameLiteral old new) := funext fun field => by cases field <;> rfl
    simp only [renamed, mapFields, modifyType, List.map_map, hfield]
    congr 1
    refine List.map_congr_left fun u _ => ?_
    simp only [Function.comp, renamedType]
    split
    · rfl
    · rfl

theorem renameCtor_ok (h : renameCtor old candidate r = .ok new r') :
    (new = old ∧ r' = r) ∨ ∃ owner k, r.ctor? old = some (owner, k) ∧
      r.proposeCtorName candidate [] = .ok new ∧
      r' = r.modifyType owner.name fun t =>
        { t with variants := t.variants.modify k fun v => { v with ctor := new } } := by
  rw [renameCtor] at h
  split at h
  · cases h
  next owner k hctor =>
  split at h
  · cases h
    exact .inl ⟨rfl, rfl⟩
  split at h
  · cases h
  next hpropose =>
  cases h
  exact .inr ⟨owner, k, hctor, hpropose, rfl⟩

theorem renameCtor_old (h : renameCtor old candidate r = .ok new r') : (r.variant? old).isSome := by
  rw [← ctor?_isSome]
  rw [renameCtor] at h
  split at h
  · cases h
  · next hctor => rw [hctor, Option.isSome_some]

theorem renameCtor_functions (h : renameCtor old candidate r = .ok new r') :
    r'.functions = r.functions := by
  rcases renameCtor_ok h with ⟨_, rfl⟩ | ⟨owner, k, _, _, rfl⟩ <;> rfl

theorem renameCtor_names (h : renameCtor old candidate r = .ok new r') :
    r'.types.map UserType.name = r.types.map UserType.name := by
  rcases renameCtor_ok h with ⟨_, rfl⟩ | ⟨owner, k, _, _, rfl⟩
  · rfl
  · exact names_modifyType fun _ => rfl

theorem deleteType_ok (h : deleteType name r = .ok t r') :
    r.userType? name = some t ∧
      r' = { r with types := r.types.filter fun t => t.name ≠ name }.mapFields
        fun ty => if ty.mentions name then none else some ty := by
  simp only [deleteType, editType] at h
  split at h
  · cases h
  next hname =>
  cases h
  exact ⟨hname, rfl⟩

theorem editVariant_ok {f : Variant → Except EditError Variant}
    (h : editVariant name variant f r = .ok () r') :
    ∃ t v v', r.userType? name = some t ∧ t.variants[variant]? = some v ∧ f v = .ok v' ∧
      r' = r.modifyType name fun t => { t with variants := t.variants.set variant v' } := by
  simp only [editVariant, editType] at h
  split at h
  · cases h
  next t hname =>
  split at h
  · cases h
  next v hv =>
  split at h
  · cases h
  next v' hv' =>
  cases h
  exact ⟨t, v, v', hname, hv, hv', rfl⟩

theorem modifyType_modifyType {g : UserType → UserType} (hf : ∀ t, (f t).name = t.name) :
    (r.modifyType name f).modifyType name g = r.modifyType name (g ∘ f) := by
  simp only [modifyType, List.map_map]
  congr 1
  refine List.map_congr_left fun t _ => ?_
  simp only [Function.comp]
  by_cases ht : t.name = name
  · rw [if_pos ht, if_pos ((hf t).trans ht), if_pos ht]
  · rw [if_neg ht, if_neg ht, if_neg ht]

theorem growType_ok (h : growType name count r = .ok () r') :
    ∃ added : List Variant, (∀ v ∈ added, v.fields = [] ∧ r.variant? v.ctor = none) ∧
      r' = r.modifyType name fun t => { t with variants := t.variants ++ added } := by
  induction count generalizing r with
  | zero =>
    cases h
    refine ⟨[], fun v hv => absurd hv List.not_mem_nil, ?_⟩
    simp [modifyType]
  | succ count ih =>
    rw [growType] at h
    split at h
    · cases h
    next ctor hpropose =>
    obtain ⟨added, hadded, rfl⟩ := ih h
    refine ⟨⟨ctor, []⟩ :: added, fun v hv => ?_, ?_⟩
    · rcases List.mem_cons.mp hv with rfl | hv
      · exact ⟨rfl, (proposeCtorName_free hpropose).1⟩
      · refine ⟨(hadded v hv).1, variant?_eq_none_iff.mpr fun e he => ?_⟩
        obtain ⟨t, ht, hname, hmem⟩ := mem_ctors.mp he
        refine variant?_eq_none_iff.mp (hadded v hv).2 e (mem_ctors.mpr
          ⟨_, List.mem_map_of_mem ht, ?_, ?_⟩)
        · split
          · exact hname
          · exact hname
        · split
          · exact List.mem_append_left _ hmem
          · exact hmem
    · refine (modifyType_modifyType ?_).trans ?_
      · exact fun _ => rfl
      · congr 1
        funext t
        simp

theorem setVariantCount_ok (h : setVariantCount name count r = .ok dropped r') :
    ∃ t, r.userType? name = some t ∧
      ((count ≤ t.variants.length ∧
        r' = r.modifyType name fun t => { t with variants := t.variants.take count }) ∨
      (t.variants.length < count ∧
        ∃ added : List Variant, (∀ v ∈ added, v.fields = [] ∧ r.variant? v.ctor = none) ∧
          r' = r.modifyType name fun t => { t with variants := t.variants ++ added })) := by
  simp only [setVariantCount, editType] at h
  split at h
  · cases h
  next t hname =>
  refine ⟨t, hname, ?_⟩
  split at h
  · next hcount =>
    cases h
    exact .inl ⟨hcount, rfl⟩
  · next hcount =>
    split at h
    · next hgrow =>
      cases h
      exact .inr ⟨Nat.lt_of_not_le hcount, growType_ok hgrow⟩
    · cases h

/-! ## The names of types -/

/-- No two types share a name, and none is called as the type of lists. -/
structure Named (r : Registry) : Prop where
  nodup : (r.types.map UserType.name).Nodup
  list : listType ∉ r.types.map UserType.name

namespace Named

theorem eq_of_name (h : r.Named) {u : UserType} (ht : t ∈ r.types) (hu : u ∈ r.types)
    (hname : t.name = u.name) : t = u :=
  List.inj_on_of_nodup_map h.nodup ht hu hname

theorem of_sublist (h : r.Named)
    (hnames : (r'.types.map UserType.name).Sublist (r.types.map UserType.name)) : r'.Named :=
  ⟨h.nodup.sublist hnames, fun hmem => h.list (hnames.subset hmem)⟩

theorem of_modifyType (h : r.Named) (hf : ∀ t, (f t).name = t.name) : (r.modifyType name f).Named :=
  h.of_sublist (by rw [names_modifyType hf])

theorem defineType (h : r.Named) {variants : List Variant}
    (hok : defineType candidate variants r = .ok name r') : r'.Named := by
  obtain ⟨hpropose, named, _, rfl⟩ := defineType_ok hok
  obtain ⟨hlist, hmem⟩ := not_known (proposeTypeName_free hpropose)
  have hnames : (r.types ++ [(⟨name, named⟩ : UserType)]).map UserType.name =
      r.types.map UserType.name ++ [name] := List.map_append
  refine ⟨?_, ?_⟩
  · rw [hnames]
    exact List.nodup_append.mpr ⟨h.nodup, List.nodup_singleton name, fun a ha b hb he => hmem
      (List.mem_singleton.mp hb ▸ he ▸ ha)⟩
  · rw [hnames, List.mem_append, List.mem_singleton]
    exact fun hcases => hcases.elim h.list fun he => hlist he.symm

theorem renamed (h : r.Named) (hfree : r.isKnownType new = false) : (r.renamed old new).Named := by
  obtain ⟨hlist, hmem⟩ := not_known hfree
  have hnames : (r.renamed old new).types.map UserType.name =
      (r.types.map UserType.name).map fun type => if type = old then new else type := by
    simp only [Registry.renamed, List.map_map]
    rfl
  refine ⟨?_, ?_⟩
  · rw [hnames]
    refine List.Nodup.map_on (fun a ha b hb hab => ?_) h.nodup
    have ha : a ≠ new := fun he => hmem (he ▸ ha)
    have hb : b ≠ new := fun he => hmem (he ▸ hb)
    split at hab <;> split at hab <;> simp_all
  · rw [hnames, List.mem_map]
    rintro ⟨type, htype, heq⟩
    split at heq
    · exact hlist heq
    · exact h.list (heq ▸ htype)

theorem deleteType (h : r.Named) (hok : deleteType name r = .ok t r') : r'.Named := by
  obtain ⟨_, rfl⟩ := deleteType_ok hok
  refine h.of_sublist ?_
  simp only [mapFields, List.map_map]
  exact List.filter_sublist.map UserType.name

end Named

/-! ## Edits of one type -/

/-- One user type has been changed, and the constructors of other types are found as before. -/
structure ChangesType (r r' : Registry) (name : String) : Prop where
  functions : r'.functions = r.functions
  names : r'.types.map UserType.name = r.types.map UserType.name
  variant : ∀ c e, r.variant? c = some e → e.1 ≠ name → r'.variant? c = some e

theorem setVariantCount_changes (hok : setVariantCount name count r = .ok dropped r') :
    ChangesType r r' name := by
  obtain ⟨_, _, ⟨_, rfl⟩ | ⟨_, added, hadded, rfl⟩⟩ := setVariantCount_ok hok
  · refine ⟨rfl, names_modifyType fun _ => rfl, fun c e he hne => variant?_modifyType he hne ?_⟩
    exact fun t _ _ hnone v hv => hnone v (List.mem_of_mem_take hv)
  · refine ⟨rfl, names_modifyType fun _ => rfl, fun c e he hne => variant?_modifyType he hne ?_⟩
    intro t _ _ hnone v hv hc
    rcases List.mem_append.mp hv with hv | hv
    · exact hnone v hv hc
    · have hfree := (hadded v hv).2
      rw [hc, he] at hfree
      cases hfree

theorem editVariant_changes (h : r.Named) {f : Variant → Except EditError Variant}
    (hf : ∀ v v', f v = .ok v' → v'.ctor = v.ctor)
    (hok : editVariant name variant f r = .ok () r') : ChangesType r r' name := by
  obtain ⟨t, v, v', ht, hv, hv', rfl⟩ := editVariant_ok hok
  refine ⟨rfl, names_modifyType fun _ => rfl, fun c e he hne => variant?_modifyType he hne ?_⟩
  intro u hu huname hnone w hw
  obtain rfl : u = t := h.eq_of_name hu (List.mem_of_find?_eq_some ht)
    (huname.trans (userType?_name ht).symm)
  rcases List.mem_or_eq_of_mem_set hw with hw | rfl
  · exact hnone w hw
  · rw [hf v w hv']
    exact hnone v (List.mem_of_getElem? hv)

theorem setFieldCount_ctor {v' : Variant}
    (h : (.ok { v with fields := resize none count v.fields } : Except EditError _) = .ok v') :
    v'.ctor = v.ctor := by
  cases h
  rfl

theorem setFieldType_ctor {v' : Variant} {field : Nat} {ty : Option Ty}
    (h : (if field < v.fields.length then .ok { v with fields := v.fields.set field ty }
      else .error (EditError.unknownField name variant field)) = Except.ok v') :
    v'.ctor = v.ctor := by
  split at h
  · cases h
    rfl
  · cases h

/-- A type whose variants keep their constructors brings no new ones. -/
theorem variant?_modifyType_eq_none (hf : ∀ t, (f t).name = t.name) (hnone : r.variant? c = none)
    (hold : ∀ t ∈ r.types, t.name = name → ∀ v ∈ (f t).variants, ∃ e ∈ r.ctors, e.2.ctor = v.ctor) :
    (r.modifyType name f).variant? c = none := by
  rw [variant?_eq_none_iff] at hnone ⊢
  intro e he
  rcases mem_ctors_modifyType hf he with he | ⟨t, ht, hname, _, hv⟩
  · exact hnone e he
  · obtain ⟨e', he', hctor⟩ := hold t ht hname e.2 hv
    exact hctor ▸ hnone e' he'

theorem editVariant_variant?_none {f : Variant → Except EditError Variant}
    (hf : ∀ v v', f v = .ok v' → v'.ctor = v.ctor) (hok : editVariant name variant f r = .ok () r')
    (hnone : r.variant? c = none) : r'.variant? c = none := by
  obtain ⟨t, v, v', ht, hv, hv', rfl⟩ := editVariant_ok hok
  refine variant?_modifyType_eq_none (fun _ => rfl) hnone fun u hu _ w hw => ?_
  rcases List.mem_or_eq_of_mem_set hw with hw | rfl
  · exact ⟨(u.name, w), mem_ctors.mpr ⟨u, hu, rfl, hw⟩, rfl⟩
  · refine ⟨(t.name, v), mem_ctors.mpr ?_, (hf v w hv').symm⟩
    exact ⟨t, List.mem_of_find?_eq_some ht, rfl, List.mem_of_getElem? hv⟩

theorem setVariantCount_variant?_none (ht : r.userType? name = some t)
    (hcount : count ≤ t.variants.length) (hok : setVariantCount name count r = .ok dropped r')
    (hnone : r.variant? c = none) : r'.variant? c = none := by
  obtain ⟨u, hu, ⟨_, rfl⟩ | ⟨hlt, _⟩⟩ := setVariantCount_ok hok
  · refine variant?_modifyType_eq_none (fun _ => rfl) hnone fun w hw _ v hv => ?_
    exact ⟨(w.name, v), mem_ctors.mpr ⟨w, hw, rfl, List.mem_of_mem_take hv⟩, rfl⟩
  · rw [ht] at hu
    cases hu
    exact absurd hcount (Nat.not_le.mpr hlt)

theorem deleteType_variant?_none (hok : deleteType name r = .ok t r')
    (hnone : r.variant? c = none) : r'.variant? c = none := by
  obtain ⟨_, rfl⟩ := deleteType_ok hok
  rw [variant?_eq_none_iff] at hnone ⊢
  intro e he
  obtain ⟨u', hu', _, hv'⟩ := mem_ctors.mp he
  obtain ⟨u, hu, rfl⟩ := List.mem_map.mp hu'
  obtain ⟨v, hv, hve⟩ := List.mem_map.mp hv'
  rw [← hve]
  exact hnone (u.name, v) (mem_ctors.mpr ⟨u, (List.mem_filter.mp hu).1, rfl, hv⟩)

/-! ## Variables -/

/-- The variables of a registry are those of its functions and of the fields of its types. -/
def HasVar (r : Registry) (v : TyVar) : Prop :=
  (∃ f ∈ r.functions, v ∈ f.2.leaves) ∨
    ∃ e ∈ r.ctors, ∃ ty, some ty ∈ e.2.fields ∧ v ∈ ty.leaves

namespace HasVar

variable {v : TyVar} {variant : Nat}

theorem of_defineFunction (h : r'.HasVar v)
    (hok : Registry.defineFunction name ty r = .ok () r') : r.HasVar v ∨ v ∈ ty.leaves := by
  obtain ⟨_, rfl⟩ := defineFunction_ok hok
  rcases h with ⟨f, hf, hv⟩ | hfield
  · rcases List.mem_cons.mp hf with rfl | hf
    · exact .inr hv
    · exact .inl (.inl ⟨f, (List.mem_filter.mp hf).1, hv⟩)
  · exact .inl (.inr hfield)

theorem of_defineType (h : r'.HasVar v) {variants : List Variant}
    (hok : Registry.defineType candidate variants r = .ok name r') :
    r.HasVar v ∨ ∃ w ∈ variants, ∃ ty, some ty ∈ w.fields ∧ v ∈ ty.leaves := by
  obtain ⟨_, named, hnamed, rfl⟩ := defineType_ok hok
  rcases h with hfunction | ⟨e, he, ty, hty, hv⟩
  · exact .inl (.inl hfunction)
  obtain ⟨t, ht, hname, hvariant⟩ := mem_ctors.mp he
  rcases List.mem_append.mp ht with ht | ht
  · exact .inl (.inr ⟨e, mem_ctors.mpr ⟨t, ht, hname, hvariant⟩, ty, hty, hv⟩)
  · rw [List.mem_singleton.mp ht] at hvariant
    obtain ⟨w, hw, hfields⟩ := nameVariants_fields hnamed hvariant
    exact .inr ⟨w, hw, ty, hfields ▸ hty, hv⟩

theorem of_renamed (h : (r.renamed old new).HasVar v) : r.HasVar v := by
  rcases h with ⟨f, hf, hv⟩ | ⟨e, he, ty, hty, hv⟩
  · obtain ⟨g, hg, rfl⟩ := List.mem_map.mp hf
    rw [TyTerm.leaves_renameLiteral] at hv
    exact .inl ⟨g, hg, hv⟩
  · obtain ⟨t', ht', _, hvariant⟩ := mem_ctors.mp he
    obtain ⟨t, ht, rfl⟩ := List.mem_map.mp ht'
    obtain ⟨w, hw, hwe⟩ := List.mem_map.mp hvariant
    rw [← hwe] at hty
    obtain ⟨field, hfield, hmap⟩ := List.mem_map.mp hty
    obtain ⟨ty', rfl, rfl⟩ := Option.map_eq_some_iff.mp hmap
    rw [TyTerm.leaves_renameLiteral] at hv
    exact .inr ⟨(t.name, w), mem_ctors.mpr ⟨t, ht, rfl, hw⟩, ty', hfield, hv⟩

theorem of_deleteType (h : r'.HasVar v) (hok : Registry.deleteType name r = .ok t r') :
    r.HasVar v := by
  obtain ⟨_, rfl⟩ := deleteType_ok hok
  rcases h with hfunction | ⟨e, he, ty, hty, hv⟩
  · exact .inl hfunction
  obtain ⟨t', ht', _, hvariant⟩ := mem_ctors.mp he
  obtain ⟨t, ht, rfl⟩ := List.mem_map.mp ht'
  obtain ⟨w, hw, hwe⟩ := List.mem_map.mp hvariant
  rw [← hwe] at hty
  obtain ⟨field, hfield, hbind⟩ := List.mem_map.mp hty
  obtain ⟨ty', rfl, hif⟩ := Option.bind_eq_some_iff.mp hbind
  split at hif
  · cases hif
  · cases hif
    exact .inr ⟨(t.name, w), mem_ctors.mpr ⟨t, (List.mem_filter.mp ht).1, rfl, hw⟩, ty, hfield, hv⟩

theorem of_modifyType (h : (r.modifyType name f).HasVar v) (hf : ∀ t, (f t).name = t.name)
    {P : Ty → Prop}
    (hfields : ∀ t ∈ r.types, t.name = name → ∀ w ∈ (f t).variants, ∀ ty, some ty ∈ w.fields →
      (∃ e ∈ r.ctors, some ty ∈ e.2.fields) ∨ P ty) : r.HasVar v ∨ ∃ ty, P ty ∧ v ∈ ty.leaves := by
  rcases h with hfunction | ⟨e, he, ty, hty, hv⟩
  · exact .inl (.inl hfunction)
  rcases mem_ctors_modifyType hf he with he | ⟨t, ht, hname, _, hvariant⟩
  · exact .inl (.inr ⟨e, he, ty, hty, hv⟩)
  · rcases hfields t ht hname e.2 hvariant ty hty with ⟨e', he', hty'⟩ | hnew
    · exact .inl (.inr ⟨e', he', ty, hty', hv⟩)
    · exact .inr ⟨ty, hnew, hv⟩

theorem of_modifyType_fields (h : (r.modifyType name f).HasVar v) (hf : ∀ t, (f t).name = t.name)
    (hfields : ∀ t ∈ r.types, t.name = name → ∀ w ∈ (f t).variants, ∀ ty, some ty ∈ w.fields →
      ∃ e ∈ r.ctors, some ty ∈ e.2.fields) : r.HasVar v := by
  refine (h.of_modifyType hf (P := fun _ => False)
    fun t ht hname w hw ty hty => ?_).resolve_right ?_
  · exact .inl (hfields t ht hname w hw ty hty)
  · rintro ⟨_, hfalse, _⟩
    exact hfalse

theorem of_setVariantCount (h : r'.HasVar v)
    (hok : Registry.setVariantCount name count r = .ok dropped r') : r.HasVar v := by
  obtain ⟨_, _, ⟨_, rfl⟩ | ⟨_, added, hadded, rfl⟩⟩ := setVariantCount_ok hok
  · refine h.of_modifyType_fields (fun _ => rfl) fun t ht _ w hw ty hty => ⟨(t.name, w), ?_, hty⟩
    exact mem_ctors.mpr ⟨t, ht, rfl, List.mem_of_mem_take hw⟩
  · refine h.of_modifyType_fields (fun _ => rfl) fun t ht _ w hw ty hty => ⟨(t.name, w), ?_, hty⟩
    rcases List.mem_append.mp hw with hw | hw
    · exact mem_ctors.mpr ⟨t, ht, rfl, hw⟩
    · rw [(hadded w hw).1] at hty
      exact absurd hty List.not_mem_nil

theorem of_editVariant (h : r'.HasVar v) {f : Variant → Except EditError Variant} {P : Ty → Prop}
    (hf : ∀ w w', f w = .ok w' → ∀ ty, some ty ∈ w'.fields → some ty ∈ w.fields ∨ P ty)
    (hok : Registry.editVariant name variant f r = .ok () r') :
    r.HasVar v ∨ ∃ ty, P ty ∧ v ∈ ty.leaves := by
  obtain ⟨t, w, w', ht, hw, hw', rfl⟩ := editVariant_ok hok
  refine h.of_modifyType (fun _ => rfl) fun u hu _ x hx ty hty => ?_
  rcases List.mem_or_eq_of_mem_set hx with hx | rfl
  · exact .inl ⟨(u.name, x), mem_ctors.mpr ⟨u, hu, rfl, hx⟩, hty⟩
  · refine (hf w x hw' ty hty).imp_left fun hold => ⟨(t.name, w), mem_ctors.mpr ?_, hold⟩
    exact ⟨t, List.mem_of_find?_eq_some ht, rfl, List.mem_of_getElem? hw⟩

theorem of_setFieldCount (h : r'.HasVar v)
    (hok : Registry.setFieldCount name variant count r = .ok () r') : r.HasVar v := by
  refine (h.of_editVariant (P := fun _ => False)
    (fun w w' hw ty hty => .inl ?_) hok).resolve_right ?_
  · cases hw
    rcases List.mem_append.mp hty with hty | hty
    · exact List.mem_of_mem_take hty
    · cases (List.mem_replicate.mp hty).2
  · rintro ⟨_, hfalse, _⟩
    exact hfalse

theorem of_setFieldType (h : r'.HasVar v) {field : Nat} {given : Option Ty}
    (hok : Registry.setFieldType name variant field given r = .ok () r') :
    r.HasVar v ∨ ∃ ty, given = some ty ∧ v ∈ ty.leaves := by
  refine h.of_editVariant (fun w w' hw ty hty => ?_) hok
  split at hw
  · cases hw
    exact (List.mem_or_eq_of_mem_set hty).imp_right Eq.symm
  · cases hw

theorem of_renameCtor (h : r'.HasVar v)
    (hok : Registry.renameCtor old candidate r = .ok new r') : r.HasVar v := by
  rcases renameCtor_ok hok with ⟨_, rfl⟩ | ⟨owner, k, _, _, rfl⟩
  · exact h
  refine h.of_modifyType_fields (fun _ => rfl) fun t ht _ w hw ty hty => ?_
  obtain ⟨j, hj, rfl⟩ := List.mem_iff_getElem.mp hw
  have hj' : j < t.variants.length := by simpa using hj
  rw [List.getElem_modify] at hty
  refine ⟨(t.name, t.variants[j]), ?_, ?_⟩
  · exact mem_ctors.mpr ⟨t, ht, rfl, List.getElem_mem _⟩
  · split at hty
    · exact hty
    · exact hty

end HasVar

/-- The supply has handed out every variable of a definition. -/
structure Below (r : Registry) (s : Supply) : Prop where
  functions : ∀ f ∈ r.functions, ∀ v ∈ f.2.leaves, v < s.next
  fields : ∀ e ∈ r.ctors, ∀ ty, some ty ∈ e.2.fields → ∀ v ∈ ty.leaves, v < s.next

theorem below_iff : r.Below s ↔ ∀ v, r.HasVar v → v < s.next := by
  constructor
  · rintro h v (⟨f, hf, hv⟩ | ⟨e, he, ty, hty, hv⟩)
    · exact h.functions f hf v hv
    · exact h.fields e he ty hty v hv
  · exact fun h => ⟨fun f hf v hv => h v (.inl ⟨f, hf, hv⟩),
      fun e he ty hty v hv => h v (.inr ⟨e, he, ty, hty, hv⟩)⟩

namespace Below

variable {variant : Nat}

theorem mono (h : r.Below s) (hs : s.next ≤ s'.next) : r.Below s' :=
  below_iff.mpr fun v hv => Nat.lt_of_lt_of_le (below_iff.mp h v hv) hs

theorem fieldType? (h : r.Below s) {field : Nat} {t : Ty}
    (ht : r.fieldType? type variant field = some t) : ∀ v ∈ t.leaves, v < s.next := by
  obtain ⟨u, hu, ht⟩ := Option.bind_eq_some_iff.mp ht
  obtain ⟨w, hw, ht⟩ := Option.bind_eq_some_iff.mp ht
  have hctor : (u.name, w) ∈ r.ctors :=
    mem_ctors.mpr ⟨u, List.mem_of_find?_eq_some hu, rfl, List.mem_of_getElem? hw⟩
  exact h.fields _ hctor t (List.mem_of_getElem? (Option.join_eq_some_iff.mp ht))

theorem of_hasVar (h : r.Below s) (hvars : ∀ v, r'.HasVar v → r.HasVar v) : r'.Below s :=
  below_iff.mpr fun v hv => below_iff.mp h v (hvars v hv)

theorem renamed (h : r.Below s) : (r.renamed old new).Below s :=
  h.of_hasVar fun _ hv => hv.of_renamed

theorem renameCtor (h : r.Below s) (hok : renameCtor old candidate r = .ok new r') :
    r'.Below s :=
  h.of_hasVar fun _ hv => hv.of_renameCtor hok

end Below

end Registry
end BlockGraph
