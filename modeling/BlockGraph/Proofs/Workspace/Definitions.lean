import BlockGraph.Proofs.Workspace.Nodes
import BlockGraph.Workspace.Definitions

/-!
# Edits of definitions

An edit of the registry concerns the distinctions of cases over the types that it
changes, since a branch binds fields with the types of the definition.  An edit that
rebuilds from all of these keeps a workspace sound and settled.  Which types an edit
changes is said by `userType?` lemmas, and which nodes it rebuilds by `_ok` lemmas, one
for each edit.
-/

namespace BlockGraph

namespace Registry

variable {r r' : Registry} {name type : String} {t : UserType}

theorem fieldType?_congr (h : r'.userType? type = r.userType? type) :
    r'.fieldType? type = r.fieldType? type := by
  funext variant field
  rw [fieldType?, fieldType?, h]

theorem userType?_name (h : r.userType? type = some t) : t.name = type := by
  simpa using List.find?_some h

theorem userType?_modifyType (r : Registry) (name type : String) {f : UserType → UserType}
    (hf : ∀ t, (f t).name = t.name) :
    (r.modifyType name f).userType? type =
      (r.userType? type).map fun t => if t.name = name then f t else t := by
  rw [modifyType, userType?, userType?, List.find?_map]
  congr 2
  funext t
  simp only [Function.comp]
  split
  · rw [hf]
  · rfl

theorem userType?_modifyType_of_ne {f : UserType → UserType} (hf : ∀ t, (f t).name = t.name)
    (hne : type ≠ name) : (r.modifyType name f).userType? type = r.userType? type := by
  rw [userType?_modifyType r name type hf]
  cases ht : r.userType? type with
  | none => rfl
  | some t =>
    have hname : t.name ≠ name := fun he => hne (userType?_name ht ▸ he)
    rw [Option.map_some, if_neg hname]

theorem userType?_mapFields (r : Registry) (f : Ty → Option Ty) (type : String) :
    (r.mapFields f).userType? type = (r.userType? type).map fun t =>
      { t with variants := t.variants.map fun v =>
          { v with fields := v.fields.map fun field => field.bind f } } := by
  rw [mapFields, userType?, userType?, List.find?_map]
  rfl

/-- An edit of one user type leaves the others alone. -/
def Keeps {α : Type} (edit : Edit α) (name : String) : Prop :=
  ∀ r a r', edit r = .ok a r' → ∀ type, type ≠ name → r'.userType? type = r.userType? type

theorem editType_keeps {α : Type} {f : UserType → Edit α} (hf : ∀ t, Keeps (f t) name) :
    Keeps (editType name f) name := by
  intro r a r' h
  rw [editType] at h
  split at h
  · cases h
  · exact hf _ r a r' h

theorem growType_keeps (count : Nat) : Keeps (growType name count) name := by
  induction count with
  | zero =>
    intro r a r' h type _
    cases h
    rfl
  | succ count ih =>
    intro r a r' h type hne
    rw [growType] at h
    split at h
    · cases h
    · exact (ih _ a r' h type hne).trans (userType?_modifyType_of_ne (fun _ => rfl) hne)

theorem setVariantCount_keeps (count : Nat) : Keeps (setVariantCount name count) name := by
  refine editType_keeps fun t r a r' h type hne => ?_
  split at h
  · cases h
    exact userType?_modifyType_of_ne (fun _ => rfl) hne
  · split at h
    · next hgrow =>
      cases h
      exact growType_keeps _ r _ _ hgrow type hne
    · cases h

theorem editVariant_keeps (variant : Nat) (f : Variant → Except EditError Variant) :
    Keeps (editVariant name variant f) name := by
  refine editType_keeps fun t r a r' h type hne => ?_
  split at h
  · cases h
  · split at h
    · cases h
    · cases h
      exact userType?_modifyType_of_ne (fun _ => rfl) hne

/-- A new definition stands behind those that are there. -/
theorem defineType_userType? {candidate : String} {variants : List Variant}
    (h : defineType candidate variants r = .ok name r') (ht : r.userType? type = some t) :
    r'.userType? type = some t := by
  unfold defineType at h
  split at h
  · cases h
  split at h
  · cases h
  cases h
  rw [userType?, List.find?_append, show r.types.find? _ = some t from ht, Option.some_or]

def without (r : Registry) (name : String) : Registry :=
  { r with types := r.types.filter fun t => t.name ≠ name }

theorem userType?_without (hne : type ≠ name) :
    (r.without name).userType? type = r.userType? type := by
  rw [userType?, userType?, without, List.find?_filter]
  congr 1
  funext t
  by_cases ht : t.name = type
  · simp [ht, hne]
  · simp [ht]

/-- No field of a type is lost that does not mention the type that is removed. -/
theorem unset_of_unmentioned {u : UserType} (h : Workspace.fieldMentions name u = false) :
    UserType.mk u.name (u.variants.map fun v => Variant.mk v.ctor (v.fields.map fun field =>
      field.bind fun ty => if ty.mentions name then none else some ty)) = u := by
  simp only [Workspace.fieldMentions, List.any_eq_false, Bool.not_eq_true] at h
  have hfields : ∀ v ∈ u.variants, (v.fields.map fun field =>
      field.bind fun ty => if ty.mentions name then none else some ty) = v.fields := by
    intro v hv
    refine (List.map_congr_left fun field hfield => ?_).trans (List.map_id _)
    cases field with
    | none => rfl
    | some ty =>
      have hty := h v hv (some ty) hfield
      rw [Option.any_some] at hty
      simp [hty]
  have hvariants : (u.variants.map fun v => Variant.mk v.ctor (v.fields.map fun field =>
      field.bind fun ty => if ty.mentions name then none else some ty)) = u.variants := by
    refine (List.map_congr_left fun v hv => ?_).trans (List.map_id _)
    rw [hfields v hv]
    rfl
  rw [hvariants]

/-- A definition stays as it is if it does not mention the type that is removed. -/
theorem deleteType_userType? (h : deleteType name r = .ok t r') (hne : type ≠ name)
    (hmention : ∀ u, r.userType? type = some u → Workspace.fieldMentions name u = false) :
    r'.userType? type = r.userType? type := by
  simp only [deleteType, editType] at h
  split at h
  · cases h
  cases h
  rw [userType?_mapFields, show userType? { r with types := _ } type = r.userType? type from
    userType?_without hne]
  cases hu : r.userType? type with
  | none => rfl
  | some u => rw [Option.map_some, unset_of_unmentioned (hmention u hu)]

/-- What a distinction of cases distinguishes stays as it is, if it depends neither on the type that
is removed nor on one that mentions it. -/
theorem deleteType_userType?_of_dependsOn {binders : List (List String)}
    (h : deleteType name r = .ok t r')
    (hname : (Block.caseOf type binders).dependsOn r name = false)
    (hreferrers : ∀ u ∈ r.types, u.name ≠ name → Workspace.fieldMentions name u = true →
      (Block.caseOf type binders).dependsOn r u.name = false) :
    r'.userType? type = r.userType? type := by
  simp only [Block.dependsOn, decide_eq_false_iff_not] at hname hreferrers
  refine deleteType_userType? h hname fun u hu => Bool.eq_false_iff.mpr fun hmention => ?_
  have hu' := userType?_name hu
  exact hreferrers u (List.mem_of_find?_eq_some hu) (hu'.symm ▸ hname) hmention hu'.symm

end Registry

namespace Workspace

variable {ws ws' : Workspace} {n : NodeId} {node : Node} {name : String} {errors : List TypeError}
  {supply : Supply} {variant : Nat} {α : Type}

theorem mem_nodesWhere (h : ws.graph.WellFormed) {p : Node → Bool} :
    n ∈ ws.nodesWhere p ↔ ∃ node, ws.graph.node? n = some node ∧ p node = true := by
  simp only [nodesWhere, List.mem_map, List.mem_filter]
  constructor
  · rintro ⟨⟨k, node⟩, ⟨hmem, hp⟩, rfl⟩
    exact ⟨node, (Slots.mem_entries_iff h.nodes).mp hmem, hp⟩
  · rintro ⟨node, hn, hp⟩
    exact ⟨(n, node), ⟨(Slots.mem_entries_iff h.nodes).mpr hn, hp⟩, rfl⟩

theorem onRegistry_ok {edit : Registry.Edit α} {a : α} (h : onRegistry edit ws = .ok a ws') :
    ∃ registry, edit ws.registry = .ok a registry ∧ ws' = { ws with registry } := by
  rw [onRegistry] at h
  split at h
  · next registry hedit =>
    cases h
    exact ⟨registry, hedit, rfl⟩
  · cases h

/-! ## What each edit does -/

theorem defineType_ok {candidate : String} {variants : List Variant}
    (hok : defineType candidate variants ws = .ok name ws') :
    ∃ registry, Registry.defineType candidate variants ws.registry = .ok name registry ∧
      ws' = { ws with
        registry, supply := ws.supply.past (fieldLeaves variants) }.retryUntyped.2 := by
  unfold defineType at hok
  split at hok
  · cases hok
  next given ws₁ hrun =>
  obtain ⟨registry, hdefine, rfl⟩ := onRegistry_ok hrun
  cases hok
  exact ⟨registry, hdefine, rfl⟩

theorem defineFunction_ok {ty : Ty} (hok : defineFunction name ty ws = .ok errors ws') :
    ∃ registry, Registry.defineFunction name ty ws.registry = .ok () registry ∧
      ws' = ({ ws with registry, supply := ws.supply.past ty.leaves }.rebuild
        (ws.nodesWhere fun node => node.untyped.isSome ||
          match node.block with
          | .function applied => applied = name
          | _ => false)).2 := by
  simp only [defineFunction] at hok
  split at hok
  · cases hok
  next ws₁ hrun =>
  obtain ⟨registry, hdefine, rfl⟩ := onRegistry_ok hrun
  cases hok
  exact ⟨registry, hdefine, rfl⟩

/-- The nodes that depend on a type or on one that mentions it. -/
def concerned (ws : Workspace) (name : String) : List NodeId :=
  ws.graph.nodeIds.filter fun n => n ∈ ws.dependents name ||
    ((ws.registry.types.filter fun t => t.name ≠ name && fieldMentions name t).map
      UserType.name).any fun t => n ∈ ws.dependents t

theorem concerned_of_dependent (h : ws.graph.WellFormed) (hn : n ∈ ws.dependents name) :
    n ∈ ws.concerned name := by
  obtain ⟨node, hnode, _⟩ := (mem_nodesWhere h).mp hn
  exact List.mem_filter.mpr ⟨Graph.mem_nodeIds.mpr ⟨node, hnode⟩, by simp [hn]⟩

theorem dependsOn_of_not_dependent (h : ws.graph.WellFormed) (hn : ws.graph.node? n = some node)
    (hmem : n ∉ ws.dependents name) : node.block.dependsOn ws.registry name = false :=
  Bool.eq_false_iff.mpr fun hdep => hmem ((mem_nodesWhere h).mpr ⟨node, hn, hdep⟩)

theorem dependsOn_of_not_concerned (h : ws.graph.WellFormed) (hn : ws.graph.node? n = some node)
    (hmem : n ∉ ws.concerned name) :
    node.block.dependsOn ws.registry name = false ∧
      ∀ t ∈ ws.registry.types, t.name ≠ name → fieldMentions name t = true →
        node.block.dependsOn ws.registry t.name = false := by
  simp only [concerned, List.mem_filter, Bool.or_eq_true, decide_eq_true_eq, List.any_eq_true,
    not_and, not_or, not_exists] at hmem
  obtain ⟨hname, hreferrers⟩ := hmem (Graph.mem_nodeIds.mpr ⟨node, hn⟩)
  refine ⟨dependsOn_of_not_dependent h hn hname, fun t ht hne hmention =>
    dependsOn_of_not_dependent h hn (hreferrers t.name (List.mem_map.mpr ⟨t, ?_, rfl⟩))⟩
  exact List.mem_filter.mpr ⟨ht, by simp [hne, hmention]⟩

/-- Removing a type rebuilds what depended on it and more, and lists what has no signature then. -/
theorem deleteType_ok {listed : List NodeId} (hok : deleteType name ws = .ok listed ws') :
    ∃ t registry, Registry.deleteType name ws.registry = .ok t registry ∧
      ws' = ({ ws with registry }.rebuild (ws.concerned name)).2 ∧
      listed = (ws.dependents name).filter fun n =>
        ((ws'.graph.node? n).bind Node.untyped).isSome := by
  simp only [deleteType] at hok
  split at hok
  · cases hok
  next removed ws₁ hrun =>
  obtain ⟨registry, hdelete, rfl⟩ := onRegistry_ok hrun
  cases hok
  exact ⟨removed, registry, hdelete, rfl, rfl⟩

theorem editType_ok {edit : Registry.Edit α} (hok : editType name edit supply ws = .ok errors ws') :
    ∃ a registry, edit ws.registry = .ok a registry ∧
      ws' = ({ ws with registry, supply }.rebuild (ws.dependents name)).2 := by
  simp only [editType] at hok
  split at hok
  · cases hok
  next a ws₁ hrun =>
  obtain ⟨registry, hregistry, rfl⟩ := onRegistry_ok hrun
  cases hok
  exact ⟨a, registry, hregistry, rfl⟩

/-- A field gets the given type as it is, and later variables differ from those in it. -/
theorem setFieldType_ok {field : Nat} {ty : Option Ty}
    (hok : setFieldType name variant field ty ws = .ok errors ws') :
    editType name (Registry.setFieldType name variant field ty)
      (ws.supply.past (ty.elim [] TyTerm.leaves)) ws = .ok errors ws' := by
  simp only [setFieldType] at hok
  split at hok
  · cases hok
  · exact hok

/-! ## Rebuilding after an edit -/

/-- A rebuild after an edit of the registry starts from all distinctions of cases over types that
the edit has changed. -/
theorem rebuild_rebuiltFrom (h : ws.Sound) {registry : Registry}
    (hsupply : ws.supply.next ≤ supply.next) {nodes : List NodeId}
    (hcase : ∀ m node type binders, m ∉ nodes → ws.graph.node? m = some node →
      node.block = .caseOf type binders → registry.userType? type = ws.registry.userType? type) :
    RebuiltFrom ws ({ ws with registry, supply }.rebuild nodes).2 := by
  let ws₁ : Workspace := { ws with registry, supply }
  have hbelow : Below ws₁.graph ws₁.supply := fun s socket hs v hv =>
    Nat.lt_of_lt_of_le (h.below s socket hs v hv) hsupply
  refine ⟨_, _, @installAll_prepared ws₁ ws h.graph h.graph hbelow nodes (fun m node hm hn => ?_)
    (fun m node hm hn => ⟨.refl ws.graph m, fun node' type binders hn' hblock => ?_⟩)
    fun _ _ hf => hf, rfl⟩
  · have hs := h.nodes m node hn
    refine ⟨hs.arity, hs.localVar, fun type binders hblock huntyped => ?_⟩
    obtain ⟨t, ht⟩ := hs.caseOf type binders hblock huntyped
    exact ⟨t, (hcase m node type binders hm hn hblock).trans ht⟩
  · exact Registry.fieldType?_congr (hcase m node' type binders hm hn' hblock)

theorem retryUntyped_rebuiltFrom (h : ws.Sound) : RebuiltFrom ws ws.retryUntyped.2 :=
  rebuild_rebuiltFrom h (Nat.le_refl _) fun _ _ _ _ _ _ _ => rfl

end Workspace
end BlockGraph
