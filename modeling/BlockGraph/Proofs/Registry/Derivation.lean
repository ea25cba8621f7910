import BlockGraph.Proofs.Registry.Names
import BlockGraph.Proofs.Unification.AlphaEquivalence

/-!
# Where signatures come from

The signature of a block is worked out from a few entries of the registry: the types
that a literal or a function mentions, the variant of a constructor, the type of a
distinction of cases.  So it survives an edit that keeps these entries
(`derive_of_entriesKept`), and under another name for a type it is the same signature with that
name (`derive_renamed`).  The supply only decides which variables stand for what is not
set: with another supply the signature is the same up to renaming (`derive_renamesTo`).
-/

namespace BlockGraph

variable {ν : Type}

theorem TyTerm.bind_curried {μ : Type} (f : ν → TyTerm μ) (params : List (TyTerm ν))
    (result : TyTerm ν) :
    (curried params result).bind f = curried (params.map (bind f)) (result.bind f) := by
  induction params with
  | nil => rfl
  | cons t rest ih => exact congrArg (fn (t.bind f)) ih

theorem TyTerm.map_curried {μ : Type} (f : ν → μ) (params : List (TyTerm ν)) (result : TyTerm ν) :
    (curried params result).map f = curried (params.map (map f)) (result.map f) :=
  bind_curried (fun v => var (f v)) params result

theorem TyTerm.mem_leaves_curried {params : List (TyTerm ν)} {result : TyTerm ν} {v : ν} :
    v ∈ (curried params result).leaves ↔ (∃ t ∈ params, v ∈ t.leaves) ∨ v ∈ result.leaves := by
  induction params with
  | nil => simp [curried]
  | cons param rest ih =>
    have hcons : (curried (param :: rest) result).leaves =
        param.leaves ++ (curried rest result).leaves := rfl
    rw [hcons, List.mem_append, ih, List.exists_mem_cons_iff, or_assoc]

theorem TyTerm.mem_literalNames_curried {params : List (TyTerm ν)} {result : TyTerm ν}
    {name : String} :
    name ∈ (curried params result).literalNames ↔
      (∃ t ∈ params, name ∈ t.literalNames) ∨ name ∈ result.literalNames := by
  induction params with
  | nil => simp [curried]
  | cons param rest ih =>
    have hcons : (curried (param :: rest) result).literalNames =
        param.literalNames ++ (curried rest result).literalNames := rfl
    rw [hcons, List.mem_append, ih, List.exists_mem_cons_iff, or_assoc]

theorem TyTerm.arity_curried {params : List (TyTerm ν)} {result : TyTerm ν} :
    (curried params result).arity = params.length + result.arity := by
  induction params with
  | nil => exact (Nat.zero_add _).symm
  | cons param rest ih =>
    show (curried rest result).arity + 1 = _
    rw [ih, List.length_cons, Nat.add_right_comm]

theorem TyTerm.renameLiteral_curried (old new : String) (params : List (TyTerm ν))
    (result : TyTerm ν) :
    (curried params result).renameLiteral old new =
      curried (params.map (renameLiteral old new)) (result.renameLiteral old new) := by
  induction params with
  | nil => rfl
  | cons t rest ih => exact congrArg (fn (t.renameLiteral old new)) ih

/-- The renaming that takes the variables of one supply to those of another, and keeps the variables
before both. -/
def Supply.shift (s s' : Supply) (v : TyVar) : TyVar :=
  if v < s.next then v else s'.next + (v - s.next)

namespace Supply

variable {s s' : Supply}

theorem shift_add (s s' : Supply) (k : Nat) : s.shift s' (s.next + k) = s'.next + k := by
  rw [shift, if_neg (Nat.not_lt.mpr (Nat.le_add_right ..)), Nat.add_sub_cancel_left]

theorem shift_injective (h : s.next ≤ s'.next) {v w : TyVar} (hvw : s.shift s' v = s.shift s' w) :
    v = w := by
  have harith : ∀ a b v w : Nat, a ≤ b →
      (if v < a then v else b + (v - a)) = (if w < a then w else b + (w - a)) → v = w := by
    intro a b v w hab heq
    split at heq <;> split at heq <;> omega
  exact harith s.next s'.next v w h hvw

theorem map_shift {t : Ty} (ht : ∀ v ∈ t.leaves, v < s.next) : t.map (s.shift s') = t := by
  conv_rhs => rw [← t.bind_self]
  exact TyTerm.bind_congr fun v hv => by rw [shift, if_pos (ht v hv)]

end Supply

namespace Registry

variable {e : String × Variant} {t : UserType}

variable {r r' : Registry} {name old new candidate type c : String} {ty : Ty} {s s' : Supply}
  {fields : List (Option Ty)}

theorem unknownIn?_eq_none_iff :
    r.unknownIn? ty = none ↔ ∀ name ∈ ty.literalNames, r.isKnownType name = true := by
  simp [unknownIn?, List.find?_eq_none]

/-! ## Fields that are not set -/

theorem set_or_new_of_mem_fillFields {t : Ty} (ht : t ∈ (fillFields fields s).1) :
    some t ∈ fields ∨ ∃ v, t = .var v ∧ s.next ≤ v ∧ v < (fillFields fields s).2.next := by
  induction fields generalizing s with
  | nil => cases ht
  | cons field rest ih =>
    cases field with
    | none =>
      rcases List.mem_cons.mp ht with rfl | ht
      · exact .inr ⟨s.next, rfl, Nat.le_refl _, fillFields_supply rest s.fresh.2⟩
      · refine (ih ht).imp (List.mem_cons_of_mem _) ?_
        rintro ⟨v, rfl, hnew, hv⟩
        exact ⟨v, rfl, Nat.le_of_succ_le hnew, hv⟩
    | some field =>
      rcases List.mem_cons.mp ht with rfl | ht
      · exact .inl List.mem_cons_self
      · exact (ih ht).imp_left (List.mem_cons_of_mem _)

theorem mem_fillFields {t : Ty} (ht : t ∈ (fillFields fields s).1) :
    some t ∈ fields ∨ t.Within s.next (fillFields fields s).2.next := by
  refine (set_or_new_of_mem_fillFields ht).imp_right ?_
  rintro ⟨v, rfl, hv⟩ w hw
  rwa [List.mem_singleton.mp hw]

/-- Other variables in the fields, and another supply, give other variables. -/
theorem fillFields_map {f : TyVar → TyVar} (hs : ∀ k, f (s.next + k) = s'.next + k) :
    (fillFields (fields.map (Option.map (TyTerm.map f))) s').1 =
      (fillFields fields s).1.map (TyTerm.map f) := by
  induction fields generalizing s s' with
  | nil => rfl
  | cons field rest ih =>
    cases field with
    | some t => simp only [List.map_cons, Option.map_some, fillFields, ih hs]
    | none =>
      have hnext : ∀ k, f (s.fresh.2.next + k) = s'.fresh.2.next + k := fun k => by
        have h := hs (1 + k)
        rwa [← Nat.add_assoc, ← Nat.add_assoc] at h
      simp only [List.map_cons, Option.map_none, fillFields, ih hnext]
      congr 1
      exact congrArg TyTerm.var (hs 0).symm

theorem fillFields_renameLiteral (old new : String) (fields : List (Option Ty)) (s : Supply) :
    fillFields (fields.map (Option.map (TyTerm.renameLiteral old new))) s =
      ((fillFields fields s).1.map (TyTerm.renameLiteral old new), (fillFields fields s).2) := by
  induction fields generalizing s with
  | nil => rfl
  | cons field rest ih =>
    cases field with
    | some t => simp only [List.map_cons, Option.map_some, fillFields, ih]
    | none => simp only [List.map_cons, Option.map_none, fillFields, ih]; rfl

/-! ## Other entries -/

theorem function?_defineFunction {other : String} (hok : defineFunction name ty r = .ok () r')
    (hne : other ≠ name) : r'.function? other = r.function? other := by
  obtain ⟨_, rfl⟩ := defineFunction_ok hok
  rw [function?, function?, List.lookup_cons, beq_eq_false_iff_ne.mpr hne]
  show (r.functions.filter fun f => f.1 ≠ name).lookup other = r.functions.lookup other
  induction r.functions with
  | nil => rfl
  | cons f rest ih =>
    by_cases hf : f.1 = name
    · have hother : (other == f.1) = false := beq_eq_false_iff_ne.mpr (hf ▸ hne)
      rw [List.filter_cons_of_neg (by simpa using hf), ih, List.lookup_cons, hother]
    · rw [List.filter_cons_of_pos (by simpa using hf), List.lookup_cons, List.lookup_cons, ih]

theorem variant?_defineType {variants : List Variant}
    (hok : defineType candidate variants r = .ok name r') (he : r.variant? c = some e) :
    r'.variant? c = some e := by
  obtain ⟨_, named, _, rfl⟩ := defineType_ok hok
  rw [variant?_eq_find, ctors, List.flatMap_append, List.find?_append]
  rw [variant?_eq_find, ctors] at he
  rw [he, Option.some_or]

theorem isKnownType_deleteType (hok : deleteType name r = .ok t r') (hne : type ≠ name)
    (hknown : r.isKnownType type = true) : r'.isKnownType type = true := by
  obtain ⟨_, rfl⟩ := deleteType_ok hok
  refine isKnownType_mono (fun hmem => ?_) hknown
  obtain ⟨u, hu, rfl⟩ := List.mem_map.mp hmem
  simp only [mapFields, List.map_map]
  exact List.mem_map.mpr ⟨u, List.mem_filter.mpr ⟨hu, by simpa using hne⟩, rfl⟩

/-- A constructor stays as it is if neither its type nor one of its fields is removed. -/
theorem variant?_deleteType (hok : deleteType name r = .ok t r') (he : r.variant? c = some e)
    (hne : e.1 ≠ name) (hfields : ∀ ty, some ty ∈ e.2.fields → ty.mentions name = false) :
    r'.variant? c = some e := by
  obtain ⟨_, rfl⟩ := deleteType_ok hok
  let keep : Ty → Option Ty := fun ty => if ty.mentions name then none else some ty
  let g : String × Variant → String × Variant := fun e =>
    (e.1, { e.2 with fields := e.2.fields.map fun field => field.bind keep })
  have hctors : ({ r with types := r.types.filter fun t => t.name ≠ name }.mapFields keep).ctors =
      (r.ctors.filter fun e => e.1 ≠ name).map g := by
    simp only [ctors, mapFields, List.flatMap_map, List.filter_flatMap, List.map_flatMap,
      List.map_map]
    induction r.types with
    | nil => rfl
    | cons u rest ih =>
      by_cases hu : u.name = name
      · rw [List.filter_cons_of_neg (by simpa using hu), ih, List.flatMap_cons]
        simp [hu]
      · rw [List.filter_cons_of_pos (by simpa using hu), List.flatMap_cons, ih, List.flatMap_cons]
        simp [List.filter_map, Function.comp_def, hu, g]
  have hg : g e = e := by
    have hmap : (e.2.fields.map fun field => field.bind keep) = e.2.fields := by
      refine (List.map_congr_left fun field hfield => ?_).trans (List.map_id _)
      cases field with
      | none => rfl
      | some ty => simp [keep, hfields ty hfield]
    simp only [g, hmap]
  rw [variant?_eq_find] at he
  obtain ⟨hc, before, after, hsplit, hbefore⟩ := List.find?_eq_some_iff_append.mp he
  rw [variant?_eq_find, hctors, List.find?_map]
  have hfound : (r.ctors.filter fun e => e.1 ≠ name).find?
      ((fun e => decide (e.2.ctor = c)) ∘ g) = some e := by
    rw [hsplit, List.filter_append, List.filter_cons_of_pos (by simpa using hne)]
    refine List.find?_eq_some_iff_append.mpr ⟨hc, _, _, rfl, fun a ha => ?_⟩
    exact hbefore a (List.mem_filter.mp ha).1
  rw [hfound, Option.map_some, hg]

/-! ## Another name -/

theorem function?_renamed (old new name : String) :
    (r.renamed old new).function? name = (r.function? name).map (TyTerm.renameLiteral old new) :=
  Subst.lookup_map_snd (TyTerm.renameLiteral old new) name r.functions

theorem variant?_renamed (old new c : String) :
    (r.renamed old new).variant? c = (r.variant? c).map fun e =>
      (if e.1 = old then new else e.1,
        { e.2 with fields := e.2.fields.map (Option.map (TyTerm.renameLiteral old new)) }) := by
  have hctors : (r.renamed old new).ctors = r.ctors.map fun e =>
      (if e.1 = old then new else e.1,
        { e.2 with fields := e.2.fields.map (Option.map (TyTerm.renameLiteral old new)) }) := by
    simp only [ctors, renamed, List.flatMap_map, List.map_flatMap, renamedType, List.map_map]
    rfl
  rw [variant?_eq_find, variant?_eq_find, hctors, List.find?_map]
  rfl

theorem userType?_renamed (hfree : new ∉ r.types.map UserType.name)
    (ht : r.userType? type = some t) :
    (r.renamed old new).userType? (if type = old then new else type) =
      some (renamedType old new t) := by
  have hname := userType?_name ht
  have hne : ∀ u ∈ r.types, u.name ≠ new := fun u hu he =>
    hfree (he ▸ List.mem_map_of_mem hu)
  have htype : type ≠ new := hname ▸ hne t (List.mem_of_find?_eq_some ht)
  rw [userType?, renamed, List.find?_map]
  refine (congrArg _ (List.find?_congr fun u hu => ?_)).trans (congrArg (Option.map _) ht)
  have hu := hne u hu
  by_cases huold : u.name = old <;> by_cases htold : type = old <;>
    simp_all [Function.comp, renamedType, eq_comm]

theorem isKnownType_renamed (hold : old ∈ r.types.map UserType.name)
    (hknown : r.isKnownType type = true) :
    (r.renamed old new).isKnownType (if type = old then new else type) = true := by
  have hmem : ∀ type ∈ r.types.map UserType.name,
      (if type = old then new else type) ∈ (r.renamed old new).types.map UserType.name := by
    intro type htype
    obtain ⟨t, ht, rfl⟩ := List.mem_map.mp htype
    exact List.mem_map.mpr ⟨renamedType old new t, List.mem_map_of_mem ht, rfl⟩
  by_cases htype : type = old
  · subst htype
    exact isKnownType_iff.mpr (.inr (.inr (hmem type hold)))
  · have hkept := hmem type
    rw [if_neg htype] at hkept ⊢
    exact isKnownType_mono hkept hknown

theorem unknownIn?_renamed (hold : old ∈ r.types.map UserType.name)
    (hknown : r.unknownIn? ty = none) :
    (r.renamed old new).unknownIn? (ty.renameLiteral old new) = none := by
  rw [unknownIn?_eq_none_iff] at hknown ⊢
  rw [TyTerm.literalNames_renameLiteral]
  intro name hname
  obtain ⟨name', hname', rfl⟩ := List.mem_map.mp hname
  exact isKnownType_renamed hold (hknown name' hname')

/-- The constructors before and after one of them gets another name. -/
theorem renameCtor_ctors (h : r.Named) (hok : renameCtor old candidate r = .ok new r') :
    (new = old ∧ r' = r) ∨ r.variant? new = none ∧ ∃ before owner v after,
      r.ctors = before ++ (owner, v) :: after ∧ v.ctor = old ∧ (∀ e ∈ before, e.2.ctor ≠ old) ∧
      r'.ctors = before ++ (owner, { v with ctor := new }) :: after := by
  rcases renameCtor_ok hok with hsame | ⟨owner, k, hctor, hpropose, rfl⟩
  · exact .inl hsame
  refine .inr ⟨(proposeCtorName_free hpropose).1, ?_⟩
  obtain ⟨before, t, after, htypes, hfound, hbefore⟩ := List.findSome?_eq_some_iff.mp hctor
  obtain ⟨k', hk', heq⟩ := Option.map_eq_some_iff.mp hfound
  cases heq
  obtain ⟨hk, hv, hfirst⟩ := List.findIdx?_eq_some_iff_getElem.mp hk'
  -- The other types have other names, so they stay as they are.
  have hnodup := h.nodup
  rw [htypes, List.map_append, List.map_cons, List.nodup_append, List.nodup_cons] at hnodup
  obtain ⟨_, ⟨hafter, _⟩, hdisjoint⟩ := hnodup
  have hothers : ∀ types : List UserType, owner.name ∉ types.map UserType.name →
      (types.map fun t => if t.name = owner.name then
        { t with variants := t.variants.modify k fun v => { v with ctor := new } }
        else t) = types :=
    fun types hnot => (List.map_congr_left fun u hu => if_neg fun he : u.name = owner.name =>
      hnot (he ▸ List.mem_map_of_mem hu)).trans (List.map_id' types)
  have hpre : owner.name ∉ before.map UserType.name := fun hmem =>
    hdisjoint _ hmem _ List.mem_cons_self rfl
  refine ⟨before.flatMap (fun t => t.variants.map (t.name, ·)) ++
      (owner.variants.take k).map (owner.name, ·), owner.name, owner.variants[k],
    (owner.variants.drop (k + 1)).map (owner.name, ·) ++
      after.flatMap fun t => t.variants.map (t.name, ·), ?_, by simpa using hv, ?_, ?_⟩
  · have hsplit :
      owner.variants.map (owner.name, ·) = (owner.variants.take k).map (owner.name, ·) ++
        (owner.name, owner.variants[k]) :: (owner.variants.drop (k + 1)).map (owner.name, ·) := by
      rw [← List.map_cons, ← List.map_append, ← List.drop_eq_getElem_cons hk, List.take_append_drop]
    rw [ctors, htypes, List.flatMap_append, List.flatMap_cons, hsplit]
    simp only [List.append_assoc, List.cons_append]
  · intro e he
    rcases List.mem_append.mp he with he | he
    · obtain ⟨t, ht, he⟩ := List.mem_flatMap.mp he
      obtain ⟨v, hv, rfl⟩ := List.mem_map.mp he
      have hnone := hbefore t ht
      rw [Option.map_eq_none_iff, List.findIdx?_eq_none_iff] at hnone
      simpa using hnone v hv
    · obtain ⟨v, hv, rfl⟩ := List.mem_map.mp he
      obtain ⟨j, hj, rfl⟩ := List.mem_take_iff_getElem.mp hv
      simpa using hfirst j (by omega)
  · rw [ctors, modifyType, htypes, List.map_append, List.map_cons, hothers before hpre,
      hothers after hafter, List.flatMap_append, List.flatMap_cons]
    simp only [if_true, List.modify_eq_take_cons_drop hk, List.map_append, List.map_cons,
      List.append_assoc, List.cons_append]

theorem renameCtor_variant? (h : r.Named) (hok : renameCtor old candidate r = .ok new r')
    (he : r.variant? c = some e) :
    ∃ v, r'.variant? (if c = old then new else c) = some (e.1, v) ∧ v.fields = e.2.fields := by
  rcases renameCtor_ctors h hok with ⟨rfl, rfl⟩ | ⟨hfree, before, owner, v, after, hctors,
    hv, hbefore,
    hctors'⟩
  · exact ⟨e.2, by rw [Workspace.ite_name_self, he], rfl⟩
  have hne : ∀ e ∈ r.ctors, e.2.ctor ≠ new := variant?_eq_none_iff.mp hfree
  have hcnew : c ≠ new := fun heq => hne e (variant?_mem he).1 ((variant?_mem he).2.trans heq)
  rw [variant?_eq_find, hctors, List.find?_append, List.find?_cons] at he
  rw [variant?_eq_find, hctors', List.find?_append, List.find?_cons]
  by_cases hc : c = old
  · subst hc
    have hnone : ∀ name, (∀ e ∈ before, e.2.ctor ≠ name) →
        (before.find? fun e => decide (e.2.ctor = name)) = none := fun name hname => by
      simpa [List.find?_eq_none] using hname
    have hnew := hnone new fun e hmem => hne e (hctors ▸ List.mem_append_left _ hmem)
    rw [hnone c hbefore] at he
    simp only [hv, decide_true, Option.none_or, Option.some.injEq] at he
    subst he
    exact ⟨{ v with ctor := new }, by simp [hnew], rfl⟩
  · refine ⟨e.2, ?_, rfl⟩
    have hvc : v.ctor ≠ c := fun heq => hc (heq.symm.trans hv)
    simp only [hvc, decide_false] at he
    simpa [hc, Ne.symm hcnew] using he

theorem renameCtor_variant?_isSome_iff (h : r.Named) (hok : renameCtor old candidate r = .ok new r')
    (hc : r.variant? c = none) : (r'.variant? c).isSome ↔ c = new := by
  rw [variant?_isSome_iff]
  rw [variant?_eq_none_iff] at hc
  rcases renameCtor_ctors h hok with ⟨rfl, rfl⟩ | ⟨_, before, owner, v, after, hctors,
    _, _, hctors'⟩
  · obtain ⟨e, he, hold⟩ := variant?_isSome_iff.mp (renameCtor_old hok)
    exact ⟨fun ⟨e', he', hc'⟩ => absurd hc' (hc e' he'), fun heq => ⟨e, he, hold.trans heq.symm⟩⟩
  · rw [hctors']
    refine ⟨fun ⟨e, he, hec⟩ => ?_,
      fun heq => ⟨_, List.mem_append_right _ List.mem_cons_self, heq.symm⟩⟩
    have hother : e ∉ before ∧ e ∉ after := by
      refine ⟨fun hmem => hc e ?_ hec, fun hmem => hc e ?_ hec⟩
      · exact hctors ▸ List.mem_append_left _ hmem
      · exact hctors ▸ List.mem_append_right _ (List.mem_cons_of_mem _ hmem)
    rcases List.mem_append.mp he with hmem | hmem
    · exact absurd hmem hother.1
    · rcases List.mem_cons.mp hmem with rfl | hmem
      · exact hec.symm
      · exact absurd hmem hother.2

end Registry

namespace Block

variable {r r' : Registry} {block : Block} {s s' s₁ : Supply} {signature : Option Ty}
  {old new candidate name : String}

/-! ## Another supply -/

/-- With another supply the signature has other variables for what is not set. -/
theorem derive_shift (hr : r.Below s) (h : block.derive r s = .ok (signature, s₁)) :
    ∃ s₁', block.derive r s' = .ok (signature.map (TyTerm.map (s.shift s')), s₁') := by
  have hnext : TyTerm.map (s.shift s') (.var s.next) = .var s'.next :=
    congrArg TyTerm.var (Supply.shift_add s s' 0)
  simp only [← derives_iff]
  cases derives_iff.mpr h with
  | literal hknown => exact ⟨s', .literal hknown⟩
  | @function name t ht hknown =>
    obtain ⟨_, _, hmem, _⟩ := List.lookup_eq_some_iff.mp ht
    rw [Option.map_some, Supply.map_shift (hr.functions (name, t) (by rw [hmem]; simp))]
    exact ⟨s', .function ht hknown⟩
  | @ctor name owner v hv =>
    have hfields : v.fields.map (Option.map (TyTerm.map (s.shift s'))) = v.fields := by
      refine (List.map_congr_left fun field hfield => ?_).trans (List.map_id _)
      cases field with
      | none => rfl
      | some ty =>
        have hbelow := hr.fields (owner, v) (Registry.variant?_mem hv).1 ty hfield
        exact congrArg some (Supply.map_shift hbelow)
    have hfill : (Registry.fillFields (v.fields.map _) s').1 =
        (Registry.fillFields v.fields s).1.map (TyTerm.map (s.shift s')) :=
      Registry.fillFields_map (Supply.shift_add s s')
    rw [hfields] at hfill
    simp only [Option.map_some, TyTerm.map_curried, TyTerm.map_lit, List.map_nil, ← hfill]
    exact ⟨_, .ctor hv⟩
  | caseOf ht =>
    simp only [Option.map_some, TyTerm.map_curried, List.map_cons, TyTerm.map_lit, List.map_nil,
      List.map_replicate, hnext]
    exact ⟨_, .caseOf ht⟩
  | list =>
    simp only [Option.map_some, TyTerm.map_curried, TyTerm.map_lit, List.map_cons, List.map_nil,
      List.map_replicate, hnext]
    exact ⟨_, .list⟩
  | localVar =>
    rw [Option.map_some, hnext]
    exact ⟨_, .localVar⟩

theorem derive_renamesTo (hr : r.Below s) (hs : s.next ≤ s'.next)
    (h : block.derive r s = .ok (signature, s₁)) :
    ∃ signature' s₁', block.derive r s' = .ok (signature', s₁') ∧
      Option.Rel TyTerm.RenamesTo signature signature' := by
  obtain ⟨s₁', hs₁'⟩ := derive_shift hr h
  refine ⟨_, s₁', hs₁', ?_⟩
  cases signature with
  | none => exact .none
  | some t => exact .some ⟨s.shift s', fun _ _ _ _ hvw => Supply.shift_injective hs hvw, rfl⟩

theorem derive_error {fault : SignatureFault} (h : block.derive r s = .error fault) (s' : Supply) :
    block.derive r s' = .error fault := by
  cases block with
  | literal ty value => cases hknown : r.unknownIn? ty <;> simp_all [derive]
  | function name =>
    cases ht : r.function? name with
    | none => simp_all [derive]
    | some t => cases hknown : r.unknownIn? t <;> simp_all [derive]
  | ctor name => cases hv : r.variant? name <;> simp_all [derive, Registry.ctorSignature?]
  | caseOf type binders =>
    cases ht : r.userType? type <;> simp_all [derive, Registry.caseSignature?]
  | list items => cases h
  | localVar name => cases h

/-! ## The number of inputs -/

theorem length_fillFields (fields : List (Option Ty)) (s : Supply) :
    (Registry.fillFields fields s).1.length = fields.length := by
  induction fields generalizing s with
  | nil => rfl
  | cons field rest ih =>
    cases field with
    | some t => exact congrArg (· + 1) (ih s)
    | none => exact congrArg (· + 1) (ih s.fresh.2)

/-- The number of parameters of the signature of a block, which is zero if there is none. -/
def inputCount (r : Registry) : Block → Nat
  | literal _ _ => 0
  | function name =>
    match r.function? name with
    | some t => if (r.unknownIn? t).isSome then 0 else t.arity
    | none => 0
  | ctor name => (r.variant? name).elim 0 fun v => v.2.fields.length
  | caseOf type _ => (r.userType? type).elim 0 fun t => t.variants.length + 1
  | list items => items
  | localVar _ => 0

theorem inputCount_of_ok (h : block.derive r s = .ok (signature, s₁)) :
    (signature.map TyTerm.arity).getD 0 = block.inputCount r := by
  cases derives_iff.mpr h with
  | literal _ | localVar => rfl
  | function ht hknown => simp [inputCount, ht, hknown]
  | ctor hv => simp [inputCount, hv, TyTerm.arity_curried, length_fillFields, TyTerm.arity]
  | caseOf ht => simp [inputCount, ht, TyTerm.arity_curried, TyTerm.arity]
  | list => simp [inputCount, TyTerm.arity_curried, TyTerm.arity]

theorem inputCount_of_error {fault : SignatureFault} (h : block.derive r s = .error fault) :
    block.inputCount r = 0 := by
  cases block with
  | literal _ _ => rfl
  | function name =>
    cases ht : r.function? name with
    | none => simp [inputCount, ht]
    | some t => cases hknown : r.unknownIn? t <;> simp_all [derive, inputCount]
  | ctor name =>
    cases hv : r.variant? name <;> simp_all [derive, Registry.ctorSignature?, inputCount]
  | caseOf type binders =>
    cases ht : r.userType? type <;> simp_all [derive, Registry.caseSignature?, inputCount]
  | list items => cases h
  | localVar name => cases h

/-! ## Another registry -/

/-- The entries that the signature of a block is worked out from are the same in another registry,
as far as they are there. -/
def EntriesKept (r r' : Registry) : Block → Prop
  | literal ty _ => ∀ name ∈ ty.literalNames, r.isKnownType name = true → r'.isKnownType name = true
  | function name => ∀ t, r.function? name = some t → r'.function? name = some t ∧
      ∀ type ∈ t.literalNames, r.isKnownType type = true → r'.isKnownType type = true
  | ctor name => ∀ e, r.variant? name = some e → r'.variant? name = some e
  | caseOf type _ => ∀ t, r.userType? type = some t →
      ∃ t', r'.userType? type = some t' ∧ t'.variants.length = t.variants.length
  | list _ => True
  | localVar _ => True

theorem derive_of_entriesKept {x : Option Ty × Supply} (h : block.derive r s = .ok x)
    (hkept : block.EntriesKept r r') : block.derive r' s = .ok x := by
  have hunknown : ∀ {t : Ty}, r.unknownIn? t = none → (∀ name ∈ t.literalNames,
      r.isKnownType name = true → r'.isKnownType name = true) → r'.unknownIn? t = none := by
    intro t hknown hkept
    rw [Registry.unknownIn?_eq_none_iff] at hknown ⊢
    exact fun name hname => hkept name hname (hknown name hname)
  obtain ⟨signature, s₁⟩ := x
  rw [← derives_iff]
  cases derives_iff.mpr h with
  | literal hknown => exact .literal (hunknown hknown hkept)
  | @function name t ht hknown =>
    obtain ⟨ht', htypes⟩ := hkept t ht
    exact .function ht' (hunknown hknown htypes)
  | ctor hv => exact .ctor (hkept _ hv)
  | @caseOf type binders t ht =>
    obtain ⟨t', ht', hlen⟩ := hkept t ht
    have hname : t'.name = t.name :=
      (Registry.userType?_name ht').trans (Registry.userType?_name ht).symm
    rw [← hname, ← hlen]
    exact .caseOf ht'
  | list => exact .list
  | localVar => exact .localVar

theorem EntriesKept.of_known
    (hknown : ∀ type, r.isKnownType type = true → r'.isKnownType type = true)
    (hfunction : ∀ name t, block = .function name → r.function? name = some t →
      r'.function? name = some t)
    (hctor : ∀ c e, block = .ctor c → r.variant? c = some e → r'.variant? c = some e)
    (hcase : ∀ type binders t, block = .caseOf type binders → r.userType? type = some t →
      r'.userType? type = some t) : block.EntriesKept r r' := by
  cases block with
  | literal ty value => exact fun type _ => hknown type
  | function name => exact fun t ht => ⟨hfunction name t rfl ht, fun type _ => hknown type⟩
  | ctor c => exact fun e he => hctor c e rfl he
  | caseOf type binders => exact fun t ht => ⟨t, hcase type binders t rfl ht, rfl⟩
  | list items => trivial
  | localVar name => trivial

theorem entriesKept_defineType {variants : List Variant}
    (hok : Registry.defineType candidate variants r = .ok name r') (block : Block) :
    block.EntriesKept r r' := by
  refine .of_known (fun type => Registry.isKnownType_mono fun hmem => ?_) (fun _ _ _ ht => ?_)
    (fun _ _ _ => Registry.variant?_defineType hok)
    fun _ _ _ _ => Registry.defineType_userType? hok
  · obtain ⟨_, named, _, rfl⟩ := Registry.defineType_ok hok
    rw [List.map_append]
    exact List.mem_append_left _ hmem
  · obtain ⟨_, named, _, rfl⟩ := Registry.defineType_ok hok
    exact ht

theorem entriesKept_defineFunction {ty : Ty} (hok : Registry.defineFunction name ty r = .ok () r')
    (hne : block ≠ .function name) : block.EntriesKept r r' := by
  have htypes : r'.types = r.types := by
    obtain ⟨_, rfl⟩ := Registry.defineFunction_ok hok
    rfl
  refine .of_known (fun type => Registry.isKnownType_mono fun hmem => htypes ▸ hmem)
    (fun _ t hblock ht => ?_) (fun c e _ he => ?_) fun type _ t _ ht => ?_
  · rw [Registry.function?_defineFunction hok fun he => hne (he ▸ hblock), ht]
  · rw [Registry.variant?_eq_find, Registry.ctors, htypes, ← Registry.ctors,
      ← Registry.variant?_eq_find, he]
  · rw [Registry.userType?, htypes]
    exact ht

/-- A removed type is missed by blocks that depend on it or on a type with a field that mentions
it. -/
theorem entriesKept_deleteType {t : UserType} (hok : Registry.deleteType name r = .ok t r')
    (hdep : block.dependsOn r name = false)
    (hreferrers : ∀ t ∈ r.types, t.name ≠ name → Workspace.fieldMentions name t = true →
      block.dependsOn r t.name = false) : block.EntriesKept r r' := by
  have hknown : ∀ ty : Ty, ty.mentions name = false → ∀ type ∈ ty.literalNames,
      r.isKnownType type = true → r'.isKnownType type = true := by
    intro ty hty type htype
    refine Registry.isKnownType_deleteType hok ?_
    rintro rfl
    simp [TyTerm.mentions, htype] at hty
  cases block with
  | literal ty value => exact hknown ty hdep
  | function applied =>
    refine fun ty hty => ⟨?_, hknown ty ?_⟩
    · obtain ⟨_, rfl⟩ := Registry.deleteType_ok hok
      exact hty
    · simpa [dependsOn, hty] using hdep
  | ctor c =>
    intro e he
    have hother : ∀ type, dependsOn r type (.ctor c) = false → e.1 ≠ type := by
      intro type htype
      rw [dependsOn, Registry.ctor?_any fun owner => owner = type, he] at htype
      simpa using htype
    have hne := hother name hdep
    refine Registry.variant?_deleteType hok he hne fun ty hty => ?_
    obtain ⟨owner, howner, hname, hv⟩ := Registry.mem_ctors.mp (Registry.variant?_mem he).1
    refine Bool.eq_false_iff.mpr fun hmention => ?_
    refine hother owner.name (hreferrers owner howner (hname ▸ hne) ?_) hname.symm
    exact List.any_eq_true.mpr ⟨e.2, hv, List.any_eq_true.mpr ⟨some ty, hty, hmention⟩⟩
  | caseOf type binders =>
    exact fun u hu =>
      ⟨u, (Registry.deleteType_userType?_of_dependsOn hok hdep hreferrers).trans hu, rfl⟩
  | list items => trivial
  | localVar name => trivial

theorem entriesKept_changesType (h : r.ChangesType r' name)
    (hkept : ∀ type, type ≠ name → r'.userType? type = r.userType? type)
    (hdep : block.dependsOn r name = false) : block.EntriesKept r r' := by
  refine .of_known (fun type => Registry.isKnownType_mono fun hmem => h.names ▸ hmem)
    (fun _ t _ ht => ?_) (fun c e hblock he => h.variant c e he ?_) fun type _ t hblock ht => ?_
  · rw [Registry.function?, h.functions]
    exact ht
  · rw [hblock, dependsOn, Registry.ctor?_any fun owner => owner = name, he] at hdep
    simpa using hdep
  · have hne : type ≠ name := by simpa [hblock, dependsOn] using hdep
    exact (hkept type hne).trans ht

theorem derive_renamed (hr : r.Named) (hold : old ∈ r.types.map UserType.name)
    (hfree : r.isKnownType new = false) (h : block.derive r s = .ok (signature, s₁)) :
    (block.renameType old new).derive (r.renamed old new) s =
      .ok (signature.map (TyTerm.renameLiteral old new), s₁) := by
  rw [← derives_iff]
  cases derives_iff.mpr h with
  | literal hknown => exact .literal (Registry.unknownIn?_renamed hold hknown)
  | function ht hknown =>
    refine .function ?_ (Registry.unknownIn?_renamed hold hknown)
    rw [Registry.function?_renamed, ht, Option.map_some]
  | @ctor name owner v hv =>
    have hv' : (r.renamed old new).variant? name = _ := Registry.variant?_renamed ..
    rw [hv, Option.map_some] at hv'
    have hderives := Derives.ctor (s := s) hv'
    simpa only [renameType, Registry.fillFields_renameLiteral, Option.map_some,
      TyTerm.renameLiteral_curried, TyTerm.renameLiteral_lit, List.map_nil] using hderives
  | @caseOf type binders t ht =>
    have ht' : (r.renamed old new).userType? _ = _ :=
      Registry.userType?_renamed (Registry.not_known hfree).2 ht
    have hderives : Derives _ s (.caseOf _ binders) _ _ := .caseOf ht'
    simpa only [renameType, Option.map_some, Registry.renamedType, TyTerm.renameLiteral_curried,
      List.map_cons, TyTerm.renameLiteral_lit, List.map_nil, List.map_replicate,
      TyTerm.renameLiteral_var, List.length_map] using hderives
  | list =>
    have hlist : Registry.listType ≠ old := fun he => hr.list (he ▸ hold)
    simp only [Option.map_some, TyTerm.renameLiteral_curried, List.map_replicate,
      TyTerm.renameLiteral_var, TyTerm.renameLiteral_lit, if_neg hlist, List.map_cons,
      List.map_nil]
    exact .list
  | localVar => exact .localVar

/-- A constructor keeps its signature under its new name, and so does every other block. -/
theorem derive_renameCtor (hr : r.Named) (hok : Registry.renameCtor old candidate r = .ok new r')
    {x : Option Ty × Supply} (h : block.derive r s = .ok x) :
    (block.renameCtor old new).derive r' s = .ok x := by
  have hknown : ∀ type, r.isKnownType type = true → r'.isKnownType type = true := fun type =>
    Registry.isKnownType_mono fun hmem => Registry.renameCtor_names hok ▸ hmem
  cases block with
  | literal ty value => exact derive_of_entriesKept h fun type _ => hknown type
  | function name =>
    refine derive_of_entriesKept h fun t ht => ⟨?_, fun type _ => hknown type⟩
    rw [Registry.function?, Registry.renameCtor_functions hok]
    exact ht
  | ctor name =>
    obtain ⟨signature, s₁⟩ := x
    rw [← derives_iff]
    cases derives_iff.mpr h with
    | ctor hvariant =>
      obtain ⟨v, hv, hfields⟩ := Registry.renameCtor_variant? hr hok hvariant
      rw [← hfields]
      exact .ctor hv
  | caseOf type binders =>
    refine derive_of_entriesKept h fun t ht => ?_
    rcases Registry.renameCtor_ok hok with ⟨_, rfl⟩ | ⟨owner, k, _, _, rfl⟩
    · exact ⟨t, ht, rfl⟩
    · have hfound := Registry.userType?_modifyType r owner.name type
        (f := fun t => { t with variants := t.variants.modify k fun v => { v with ctor := new } })
        fun _ => rfl
      rw [ht, Option.map_some] at hfound
      refine ⟨_, hfound, ?_⟩
      split
      · exact List.length_modify ..
      · rfl
  | list items => exact h
  | localVar name => exact h

/-! ## Whether there is a signature -/

/-- All that the signature of a block is worked out from is there. -/
def Known (r : Registry) : Block → Prop
  | literal ty _ => ∀ name ∈ ty.literalNames, r.isKnownType name = true
  | function name => ∃ t, r.function? name = some t ∧
      ∀ type ∈ t.literalNames, r.isKnownType type = true
  | ctor name => (r.variant? name).isSome
  | caseOf type _ => type ∈ r.types.map UserType.name
  | list _ => True
  | localVar _ => True

theorem derive_eq_ok_iff : (∃ x, block.derive r s = .ok x) ↔ block.Known r := by
  cases block with
  | literal ty value =>
    simp only [derive, Known, ← Registry.unknownIn?_eq_none_iff]
    cases r.unknownIn? ty <;> simp
  | function name =>
    simp only [derive, Known, ← Registry.unknownIn?_eq_none_iff]
    cases r.function? name with
    | none => simp
    | some t => cases hknown : r.unknownIn? t <;> simp [hknown]
  | ctor name =>
    simp only [derive, Known, Registry.ctorSignature?]
    cases r.variant? name <;> simp
  | caseOf type binders =>
    simp only [derive, Known, Registry.caseSignature?, ← Registry.userType?_isSome_iff]
    cases r.userType? type <;> simp
  | list items => simp [derive, Known]
  | localVar name => simp [derive, Known]

/-- A registry with the same functions, no type more and no constructor more has no block more. -/
theorem Known.of_le (h : block.Known r') (hfunctions : r'.functions = r.functions)
    (hnames : ∀ type ∈ r'.types.map UserType.name, type ∈ r.types.map UserType.name)
    (hctor : ∀ c, block = .ctor c → r.variant? c = none → r'.variant? c = none) :
    block.Known r := by
  have hknown : ∀ type, r'.isKnownType type = true → r.isKnownType type = true := fun type =>
    Registry.isKnownType_mono (hnames type)
  cases block with
  | literal ty value => exact fun type htype => hknown type (h type htype)
  | function name =>
    obtain ⟨t, ht, htypes⟩ := h
    rw [Registry.function?, hfunctions] at ht
    exact ⟨t, ht, fun type htype => hknown type (htypes type htype)⟩
  | ctor c =>
    refine Option.isSome_iff_ne_none.mpr fun hnone => ?_
    exact Option.isSome_iff_ne_none.mp h (hctor c rfl hnone)
  | caseOf type binders => exact hnames type h
  | list items => trivial
  | localVar name => trivial

end Block
end BlockGraph
