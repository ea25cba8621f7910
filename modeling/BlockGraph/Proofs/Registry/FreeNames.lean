import BlockGraph.Proofs.Registry.WellNamed

/-!
# Names that are given as they are asked for

A search for a free name changes the candidate only where it is not legal, and goes on
only where it is taken.  So a legal name that is not taken is given as it is.  This is
what brings back the old name of a type that has got another one, and the names of a type
and of its constructors that are defined once more after the type was deleted.
-/

namespace BlockGraph

namespace Naming

variable {name placeholder : String} {taken : String → Bool}

theorem isDigit_iff {c : Char} : c.isDigit = true ↔ 48 ≤ c.toNat ∧ c.toNat ≤ 57 := by
  simp [Char.isDigit, UInt32.le_iff_toNat_le]

theorem isDigit_of_first {c : Char} (h : c.isUpper = true ∨ c = '_') : c.isDigit = false := by
  rcases h with hupper | rfl
  · have hrange := isUpper_iff.mp hupper
    rw [← Bool.not_eq_true, isDigit_iff]
    omega
  · rfl

theorem sanitize_of_legal (h : Legal name) : sanitize name placeholder = name := by
  obtain ⟨first, rest, hname, hfirst, hrest⟩ := legal_iff.mp h
  have hchar : isNameChar first = true := by
    rw [isNameChar_iff]
    refine hfirst.imp_left fun hupper => ?_
    simp [Char.isAlphanum, Char.isAlpha, hupper]
  have hfilter : name.toList.filter isNameChar = first :: rest := by
    rw [List.filter_eq_self.mpr, hname]
    rw [hname]
    exact List.forall_mem_cons.mpr ⟨hchar, hrest⟩
  have hupper : first.toUpper = first := by
    rcases hfirst with hupper | rfl
    · exact toUpper_of_isUpper hupper
    · decide
  rw [sanitize, hfilter]
  simp only [isDigit_of_first hfirst, Bool.false_eq_true, if_false, hupper]
  rw [← hname, String.ofList_toList]

theorem propose_of_legal (h : Legal name) (hfree : taken name = false) :
    propose name placeholder taken = .ok name := by
  rw [propose, sanitize_of_legal h, maxAttempts, firstFree, hfree]
  rfl

end Naming

namespace TyTerm

variable {ν : Type} {old new : String} {t : TyTerm ν}

theorem mentions_eq_false_iff {name : String} :
    t.mentions name = false ↔ name ∉ t.literalNames := by
  rw [mentions, ← Bool.not_eq_true, List.contains_iff_mem]

theorem mentions_renameLiteral (hne : new ≠ old) :
    (t.renameLiteral old new).mentions old = false := by
  rw [mentions_eq_false_iff, literalNames_renameLiteral, List.mem_map]
  rintro ⟨name, _, hname⟩
  split at hname
  · exact hne hname
  · next hold => exact hold hname

/-- A type that does not mention the new name gets its old names back. -/
theorem renameLiteral_renameLiteral (h : t.mentions new = false) :
    (t.renameLiteral old new).renameLiteral new old = t := by
  rw [mentions_eq_false_iff] at h
  induction t with
  | var v => rfl
  | lit name args ih =>
    rw [literalNames_lit, List.mem_cons, not_or] at h
    rw [renameLiteral_lit, renameLiteral_lit, List.map_map]
    congr 1
    · by_cases hold : name = old
      · simp [hold]
      · simp [hold, Ne.symm h.1]
    · refine (List.map_congr_left fun u hu => ?_).trans (List.map_id args)
      exact ih u hu fun hmem => h.2 (List.mem_flatMap.mpr ⟨u, hu, hmem⟩)
  | fn domain codomain ihd ihc =>
    rw [literalNames, List.mem_append, not_or] at h
    rw [renameLiteral_fn, renameLiteral_fn, ihd h.1, ihc h.2]

end TyTerm

namespace Registry

variable {r : Registry} {old new name : String}

theorem proposeTypeName_of_legal (h : Naming.Legal name) (hfree : r.isKnownType name = false) :
    r.proposeTypeName name = .ok name :=
  Naming.propose_of_legal h hfree

/-! ## Renaming there and back -/

/-- Whether a field or the signature of a function mentions a type. -/
def mentions (r : Registry) (name : String) : Bool :=
  r.types.any (Workspace.fieldMentions name) || r.functions.any fun f => f.2.mentions name

theorem mentions_eq_false_iff : r.mentions name = false ↔
    (∀ t ∈ r.types, ∀ v ∈ t.variants, ∀ ty, some ty ∈ v.fields → ty.mentions name = false) ∧
      ∀ f ∈ r.functions, f.2.mentions name = false := by
  simp only [mentions, Workspace.fieldMentions, Bool.or_eq_false_iff, List.any_eq_false,
    Option.any_eq_true, not_exists, not_and, Bool.not_eq_true]
  refine and_congr_left fun _ => forall₂_congr fun t _ => forall₂_congr fun v _ => ?_
  exact ⟨fun h ty hty => h (some ty) hty ty rfl, fun h f hf ty hty => h ty (hty ▸ hf)⟩

theorem mentions_renamed (hne : new ≠ old) : (r.renamed old new).mentions old = false := by
  rw [mentions_eq_false_iff]
  constructor
  · intro t' ht' v' hv' ty hty
    obtain ⟨t, _, rfl⟩ := List.mem_map.mp ht'
    obtain ⟨v, _, rfl⟩ := List.mem_map.mp hv'
    obtain ⟨field, _, hfield⟩ := List.mem_map.mp hty
    obtain ⟨ty, _, rfl⟩ := Option.map_eq_some_iff.mp hfield
    exact TyTerm.mentions_renameLiteral hne
  · intro f' hf'
    obtain ⟨f, _, rfl⟩ := List.mem_map.mp hf'
    exact TyTerm.mentions_renameLiteral hne

/-- What has got the new name of a type gets the old one back, if the new one stood nowhere. -/
theorem renamed_renamed (hfree : new ∉ r.types.map UserType.name) (h : r.mentions new = false) :
    (r.renamed old new).renamed new old = r := by
  obtain ⟨hfields, hfunctions⟩ := mentions_eq_false_iff.mp h
  have htypes : r.types.map (renamedType new old ∘ renamedType old new) = r.types := by
    refine (List.map_congr_left fun t ht => ?_).trans (List.map_id r.types)
    have hname : t.name ≠ new := fun he => hfree (List.mem_map.mpr ⟨t, ht, he⟩)
    have hvariants : ∀ v ∈ t.variants, v.fields.map
        (Option.map (TyTerm.renameLiteral new old) ∘ Option.map (TyTerm.renameLiteral old new)) =
          v.fields := by
      intro v hv
      refine (List.map_congr_left fun field hfield => ?_).trans (List.map_id v.fields)
      cases field with
      | none => rfl
      | some ty =>
        exact congrArg some (TyTerm.renameLiteral_renameLiteral (hfields t ht v hv ty hfield))
    have hname' : (renamedType new old (renamedType old new t)).name = t.name := by
      simp only [renamedType]
      by_cases hold : t.name = old
      · simp [hold]
      · simp [hold, hname]
    have hvariants' : (renamedType new old (renamedType old new t)).variants = t.variants := by
      simp only [renamedType, List.map_map]
      refine (List.map_congr_left fun v hv => ?_).trans (List.map_id t.variants)
      simp only [Function.comp, List.map_map, id_eq]
      exact congrArg (Variant.mk v.ctor) (hvariants v hv)
    exact congrArg₂ UserType.mk hname' hvariants'
  have hsignatures :
      r.functions.map (fun f => (f.1, (f.2.renameLiteral old new).renameLiteral new old))
      = r.functions := by
    refine (List.map_congr_left fun f hf => ?_).trans (List.map_id r.functions)
    rw [TyTerm.renameLiteral_renameLiteral (hfunctions f hf)]
    rfl
  simp only [renamed, List.map_map]
  exact congrArg₂ Registry.mk htypes hsignatures

theorem renameType_of_legal (hold : old ∈ r.types.map UserType.name) (hlegal : Naming.Legal new)
    (hne : new ≠ old) (hfree : r.isKnownType new = false) :
    renameType old new r = .ok new (r.renamed old new) := by
  obtain ⟨t, ht⟩ := Option.isSome_iff_exists.mp (userType?_isSome_iff.mpr hold)
  have hsanitize : Naming.sanitize new Naming.typePlaceholder = new :=
    Naming.sanitize_of_legal hlegal
  obtain ⟨r', hok⟩ : ∃ r', renameType old new r = .ok new r' := by
    simp only [renameType, editType, ht, hsanitize, if_neg hne,
      proposeTypeName_of_legal hlegal hfree]
    exact ⟨_, rfl⟩
  obtain ⟨_, _, _, rfl⟩ := (renameType_ok hok).resolve_left fun hsame => hne hsame.1
  exact hok

theorem renameType_known {candidate : String} {r' : Registry}
    (hok : renameType old candidate r = .ok new r') : old ∈ r.types.map UserType.name := by
  simp only [renameType, editType] at hok
  split at hok
  · cases hok
  · next t ht => exact userType?_isSome_iff.mp (Option.isSome_iff_exists.mpr ⟨t, ht⟩)

theorem renameType_same (hold : old ∈ r.types.map UserType.name) (hlegal : Naming.Legal old) :
    renameType old old r = .ok old r := by
  obtain ⟨t, ht⟩ := Option.isSome_iff_exists.mp (userType?_isSome_iff.mpr hold)
  simp only [renameType, editType, ht, Naming.sanitize_of_legal hlegal, if_true]

theorem isKnownType_old (h : r.WellNamed) (hold : old ∈ r.types.map UserType.name)
    (hne : new ≠ old) : (r.renamed old new).isKnownType old = false := by
  obtain ⟨hbuiltin, hlist⟩ := h.types_user old hold
  refine Bool.eq_false_iff.mpr fun hknown => ?_
  rcases isKnownType_iff.mp hknown with hmem | hmem | hmem
  · exact hbuiltin (by simpa [isBuiltin] using hmem)
  · exact hlist hmem
  · obtain ⟨t', ht', hname⟩ := List.mem_map.mp hmem
    obtain ⟨t, _, rfl⟩ := List.mem_map.mp ht'
    simp only [renamedType] at hname
    split at hname
    · exact hne hname
    · next htold => exact htold hname

theorem renamed_self (r : Registry) (name : String) : r.renamed name name = r := by
  have hid : TyTerm.renameLiteral (ν := TyVar) name name = id :=
    funext (TyTerm.renameLiteral_self name)
  have htype : renamedType name name = id := funext fun t => by
    simp [renamedType, hid, Workspace.ite_name_self]
  simp [renamed, htype, hid]

end Registry
end BlockGraph
