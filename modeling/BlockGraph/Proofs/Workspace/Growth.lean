import BlockGraph.Proofs.Registry.Growth
import BlockGraph.Proofs.Workspace.Refusals
import BlockGraph.Proofs.Workspace.Signatures

/-!
# Setting the number of variants

Setting the number of variants of a type succeeds as long as there are names for the
new ones.  Then the type has the number that was asked for, and the distinctions of
cases over it have an input for each variant.  Otherwise it is refused, but the type
has grown by all names that were left, and the distinctions of cases over it have not
followed.  This is the only trace that a refused edit leaves, so all workspaces that
edits lead to are sound, whether edits on the way have been refused or not.
-/

namespace BlockGraph

/-- A distinction of cases whose signature has been looked for has an input for the value and one
for each variant. -/
theorem Node.LookedUp.length_inputs_caseOf {node : Node} {r : Registry} {s s' : Supply}
    (h : node.LookedUp r s s') {type : String} {binders : List (List String)}
    (hblock : node.block = .caseOf type binders) {t : UserType} (ht : r.userType? type = some t) :
    node.inputs.length = 1 + t.variants.length := by
  obtain ⟨node₀, s₀, _, _, hinst⟩ := h
  have hcount : node.block.inputCount r = t.variants.length + 1 := by
    rw [hblock, Block.inputCount, ht, Option.elim_some]
  cases hinst with
  | found h hinputs =>
    rw [← Block.derive_syncBinders r r node₀.block] at h
    rw [hinputs, Block.inputCount_of_ok h, hcount, Nat.add_comm]
  | missing h =>
    rw [← Block.derive_syncBinders r r node₀.block] at h
    rw [Block.inputCount_of_error h] at hcount
    cases hcount

namespace Registry

theorem withVariants_ne {r : Registry} {name : String} (ht : (r.userType? name).isSome)
    {added : List String} (hadded : added ≠ []) : r.withVariants name added ≠ r := by
  obtain ⟨t, ht⟩ := Option.isSome_iff_exists.mp ht
  intro heq
  have hgrown := r.userType?_withVariants name name added
  rw [heq, ht, Option.map_some, if_pos (userType?_name ht)] at hgrown
  have hvariants := congrArg (fun t => t.variants.length) (Option.some.inj hgrown)
  simp only [UserType.grow, List.length_append, List.length_map] at hvariants
  exact hadded (List.eq_nil_of_length_eq_zero (by omega))

end Registry

namespace Workspace

variable {ws ws' : Workspace} {e : EditError} {name : String} {count : Nat} {t : UserType}
  {action : Action}

/-! ## Refusals -/

theorem setVariantCount_error (h : setVariantCount name count ws = .error e ws') :
    ∃ registry, Registry.setVariantCount name count ws.registry = .error e registry ∧
      ws' = { ws with registry } := by
  simp only [setVariantCount, editType, onRegistry] at h
  cases hedit : Registry.setVariantCount name count ws.registry with
  | ok dropped registry =>
    rw [hedit] at h
    cases h
  | error e' registry =>
    rw [hedit] at h
    cases h
    exact ⟨registry, rfl, rfl⟩

theorem setVariantCount_unknown (hnone : ws.registry.userType? name = none) (count : Nat) :
    setVariantCount name count ws = .error (.unknownType name) ws := by
  simp only [setVariantCount, editType, onRegistry, Registry.setVariantCount_unknown hnone]

/-- Too large a number is refused after all names that are left have been given. -/
theorem setVariantCount_exhausted (ht : ws.registry.userType? name = some t)
    (hcount : t.variants.length + ws.registry.spareNames.length < count) :
    setVariantCount name count ws =
      .error (.type (.nameCollision Naming.constructorPlaceholder Naming.maxAttempts))
        { ws with registry := ws.registry.withVariants name ws.registry.spareNames } := by
  have hmany : ¬ count ≤ t.variants.length := by omega
  have hedit := Registry.setVariantCount_eq ht count
  rw [if_neg hmany, if_neg (Nat.not_le.mpr hcount)] at hedit
  simp only [setVariantCount, editType, onRegistry, hedit]

/-! ## Success -/

/-- A type has the number of variants that was asked for, and the distinctions of cases over it have
followed. -/
structure VariantsSet (ws ws' : Workspace) (name : String) (count : Nat) (t : UserType)
    (added : List Variant) : Prop where
  type : ws'.registry.userType? name = some { t with variants := t.variants.take count ++ added }
  length : (t.variants.take count ++ added).length = count
  fields : ∀ v ∈ added, v.fields = []
  unused : ∀ v ∈ added, ws.registry.variant? v.ctor = none ∧ ws.registry.function? v.ctor = none
  nodup : (added.map Variant.ctor).Nodup
  others : ∀ type, type ≠ name → ws'.registry.userType? type = ws.registry.userType? type
  functions : ws'.registry.functions = ws.registry.functions
  inputs : ∀ n node binders, ws'.graph.node? n = some node → node.block = .caseOf name binders →
    node.inputs.length = 1 + count

/-- The part of `VariantsSet` that is about the registry. -/
theorem setVariantCount_registry (ht : ws.registry.userType? name = some t)
    (hcount : count ≤ t.variants.length + ws.registry.spareNames.length) :
    ∃ dropped registry added,
      Registry.setVariantCount name count ws.registry = .ok dropped registry ∧
      registry.userType? name = some { t with variants := t.variants.take count ++ added } ∧
      (t.variants.take count ++ added).length = count ∧
      added = (ws.registry.spareNames.take (count - t.variants.length)).map (⟨·, []⟩) := by
  have hedit := Registry.setVariantCount_eq ht count
  have hname := Registry.userType?_name ht
  by_cases hfew : count ≤ t.variants.length
  · rw [if_pos hfew] at hedit
    refine ⟨_, _, _, hedit, ?_, ?_, rfl⟩
    · have htype := Registry.userType?_modifyType ws.registry name name
        (f := fun t => { t with variants := t.variants.take count }) fun _ => rfl
      rw [htype, ht, Option.map_some, if_pos hname, Nat.sub_eq_zero_of_le hfew, List.take_zero,
        List.map_nil, List.append_nil]
    · rw [Nat.sub_eq_zero_of_le hfew, List.take_zero, List.map_nil, List.append_nil,
        List.length_take, Nat.min_eq_left hfew]
  · rw [if_neg hfew, if_pos hcount] at hedit
    have hall : t.variants.take count = t.variants := List.take_of_length_le (by omega)
    refine ⟨_, _, _, hedit, ?_, ?_, rfl⟩
    · rw [Registry.userType?_withVariants, ht, Option.map_some, if_pos hname, hall]
      rfl
    · rw [hall, List.length_append, List.length_map, List.length_take]
      omega

theorem setVariantCount_set (h : ws.Sound) (ht : ws.registry.userType? name = some t)
    (hcount : count ≤ t.variants.length + ws.registry.spareNames.length) :
    ∃ errors ws' added, setVariantCount name count ws = .ok errors ws' ∧
      VariantsSet ws ws' name count t added := by
  obtain ⟨dropped, registry, added, hedit, htype, hlen, hadded⟩ :=
    setVariantCount_registry ht hcount
  obtain ⟨errors, ws', hok⟩ : ∃ errors ws', setVariantCount name count ws = .ok errors ws' := by
    simp only [setVariantCount, editType, onRegistry, hedit]
    exact ⟨_, _, rfl⟩
  have hr : Revised { ws with registry } ws' (ws.dependents name) := by
    obtain ⟨dropped', registry', hedit', rfl⟩ := editType_ok hok
    rw [hedit] at hedit'
    cases hedit'
    exact (Action.Redefines.setVariantCount hedit).revised h
  have hregistry : ws'.registry = registry := hr.registry
  have hmem : ∀ v ∈ added, ∃ c ∈ ws.registry.spareNames, v = ⟨c, []⟩ := by
    intro v hv
    rw [hadded] at hv
    obtain ⟨c, hc, rfl⟩ := List.mem_map.mp hv
    exact ⟨c, List.mem_of_mem_take hc, rfl⟩
  refine ⟨errors, ws', added, hok, ⟨hregistry ▸ htype, hlen, fun v hv => ?_, fun v hv => ?_, ?_,
    fun type hne => ?_, ?_, fun n node binders hn hblock => ?_⟩⟩
  · obtain ⟨c, _, rfl⟩ := hmem v hv
    rfl
  · obtain ⟨c, hc, rfl⟩ := hmem v hv
    exact Registry.spareNames_unused hc
  · have hctors : added.map Variant.ctor =
        ws.registry.spareNames.take (count - t.variants.length) := by
      rw [hadded, List.map_map]
      exact List.map_id _
    rw [hctors]
    exact ws.registry.spareNames_nodup.sublist (List.take_sublist _ _)
  · rw [hregistry]
    exact Registry.setVariantCount_keeps count ws.registry dropped registry hedit type hne
  · rw [hregistry]
    exact (Registry.setVariantCount_changes hedit).functions
  · rcases hr.node n node hn with hlook | ⟨hold, hlist⟩
    · rw [hlook.length_inputs_caseOf hblock htype, hlen]
    · refine absurd ((mem_nodesWhere h.graph).mpr ⟨node, hold, ?_⟩) hlist
      simp [hblock, Block.dependsOn]

/-! ## Workspaces that edits lead to -/

/-- The workspaces that edits lead to, also if some of them are refused. -/
inductive Visited : Workspace → Prop
  | empty : Visited empty
  | done {ws ws' : Workspace} {action : Action} (h : Visited ws)
      (hok : action.edit ws = .ok () ws') : Visited ws'
  | refused {ws ws' : Workspace} {action : Action} {e : EditError} (h : Visited ws)
      (hrefused : action.edit ws = .error e ws') : Visited ws'
  | clear {ws ws' : Workspace} (h : Visited ws) (hok : clear ws = .ok () ws') : Visited ws'

theorem Reachable.visited (h : ws.Reachable) : ws.Visited := by
  induction h with
  | empty => exact .empty
  | clear _ hok ih => exact ih.clear hok
  | run _ hrun ih => exact ih.done ((Action.run_eq_some_iff _ _).mp hrun)

/-- A refused edit leaves all as it was, or a type that has grown by all names that were left. -/
theorem refused_cases (hgraph : ws.graph.WellFormed) (hrefused : action.edit ws = .error e ws') :
    ws' = ws ∨ ∃ name, ws' =
      { ws with registry := ws.registry.withVariants name ws.registry.spareNames } := by
  by_cases hgrow : ∀ name count, action ≠ .setVariantCount name count
  · exact .inl (Action.edit_error hgrow hgraph hrefused)
  obtain ⟨name, count, rfl⟩ : ∃ name count, action = .setVariantCount name count := by
    simpa using hgrow
  obtain ⟨registry, hedit, rfl⟩ := setVariantCount_error (discard_error hrefused)
  rcases Registry.setVariantCount_refused hedit with rfl | rfl
  · exact .inl rfl
  · exact .inr ⟨name, rfl⟩

theorem refused_graph (hgraph : ws.graph.WellFormed) (hrefused : action.edit ws = .error e ws') :
    ws'.graph = ws.graph := by
  rcases refused_cases hgraph hrefused with rfl | ⟨name, rfl⟩ <;> rfl

/-- A refused edit changes no node and makes no type unknown. -/
theorem Sound.refused (h : ws.Sound) (hrefused : action.edit ws = .error e ws') : ws'.Sound := by
  rcases refused_cases h.graph hrefused with rfl | ⟨name, rfl⟩
  · exact h
  refine ⟨h.graph, fun n node hn => ?_, h.below, h.apart⟩
  have hs := h.nodes n node hn
  refine ⟨hs.arity, hs.localVar, fun type binders hblock htyped => ?_⟩
  obtain ⟨t, ht⟩ := hs.caseOf type binders hblock htyped
  have hsome : (ws.registry.userType? type).isSome := by rw [ht]; rfl
  exact Option.isSome_iff_exists.mp (Registry.isSome_userType?_withVariants hsome name _)

theorem Visited.sound (h : ws.Visited) : ws.Sound := by
  induction h with
  | empty => exact empty_sound
  | done _ hok ih => exact Action.run_sound ih ((Action.run_eq_some_iff _ _).mpr hok)
  | refused _ hrefused ih => exact ih.refused hrefused
  | clear _ hok _ => exact clear_sound hok

/-- Whatever edits have led to a workspace, a step that is refused leaves the graph, the registry
and the supply as they are, unless it sets the number of variants of a type. -/
theorem refused_unchanged (h : ws.Visited) {action : Action}
    (hgrow : ∀ name count, action ≠ .setVariantCount name count)
    (hrefused : action.edit ws = .error e ws') : action.run ws = none ∧ ws' = ws :=
  ⟨(action.run_eq_none_iff ws).mpr ⟨e, ws', hrefused⟩,
    Action.edit_error hgrow h.sound.graph hrefused⟩

/-- A list cannot be an item of itself, and stays as it is when this is tried. -/
theorem refused_unchanged_cycle :
    ∃ ws ws' : Workspace, ∃ e, empty.runAll [.addNode (.list 1)] = some ws ∧
      (Action.connect 0 1).edit ws = .error e ws' ∧ (Action.connect 0 1).run ws = none ∧
      ws' = ws := by
  have hrun : (empty.runAll [.addNode (.list 1)]).isSome := by cbv
  have hsome := (Option.some_get hrun).symm
  have hnone : (Action.connect 0 1).run ((empty.runAll [.addNode (.list 1)]).get hrun) = none := by
    cbv
  obtain ⟨e, ws', hrefused⟩ := (Action.run_eq_none_iff _ _).mp hnone
  refine ⟨_, ws', e, hsome, hrefused,
    refused_unchanged (Reachable.empty.runAll hsome).visited ?_ hrefused⟩
  intro name count h
  cases h

/-- A property of the nodes of a workspace holds of all workspaces that edits lead to, if it is kept
where signatures are looked for, and where nothing but names changes in nodes. -/
theorem Visited.of_nodes {P : Workspace → Prop} (hempty : P Workspace.empty)
    (hrevised : ∀ ws ws' nodes, Revised ws ws' nodes → P ws → P ws')
    (hresembles : ∀ ws ws', (∀ n node', ws'.graph.node? n = some node' →
      ∃ node, ws.graph.node? n = some node ∧ node.Resembles node') → P ws → P ws')
    (h : ws.Visited) : P ws := by
  induction h with
  | empty => exact hempty
  | @done _ _ action h hok ih =>
    exact action.run_nodes h.sound ((Action.run_eq_some_iff _ _).mpr hok) hrevised hresembles ih
  | refused h hrefused ih =>
    refine hresembles _ _ (fun n node hn => ?_) ih
    rw [refused_graph h.sound.graph hrefused] at hn
    exact ⟨node, hn, rfl, id, rfl, fun ty _ hblock => ⟨ty, hblock⟩⟩
  | clear _ hok ih =>
    refine hresembles _ _ (fun n node hn => ?_) ih
    cases (clear_node? hok n).symm.trans hn

theorem Visited.literalsClosed (h : ws.Visited) : ws.LiteralsClosed := by
  refine h.of_nodes ?_ (fun _ _ _ hr => hr.literals) ?_
  · intro n node ty value hn
    cases (empty_node? n).symm.trans hn
  · intro ws ws' hresembles hclosed n node' ty value hn hblock
    obtain ⟨node, hn, hsame⟩ := hresembles n node' hn
    obtain ⟨ty', hblock'⟩ := hsame.literal ty value hblock
    exact hsame.inputs.trans (hclosed n node ty' value hn hblock')

theorem Stocked.refused (hs : ws.Stocked) (hgraph : ws.graph.WellFormed)
    (hrefused : action.edit ws = .error e ws') : ws'.Stocked := by
  rcases refused_cases hgraph hrefused with rfl | ⟨name, rfl⟩
  · exact hs
  · exact ⟨hs.started, hs.below.withVariants⟩

theorem Visited.stocked (h : ws.Visited) : ws.Stocked := by
  induction h with
  | empty => exact ⟨Nat.le_refl _, withPrelude_below⟩
  | done h hok ih => exact ih.run h.sound ((Action.run_eq_some_iff _ _).mpr hok)
  | refused h hrefused ih => exact ih.refused h.sound.graph hrefused
  | clear _ hok ih =>
    cases hok
    exact ⟨ih.started, withPrelude_below.mono ih.started⟩

/-- The number of variants is set as asked for if there are names for the new ones.  Otherwise the
graph stays as it is, but the type has grown by all names that were left. -/
theorem setVariantCount_outcome (h : ws.Visited) (name : String) (count : Nat) :
    match setVariantCount name count ws with
    | .ok _ ws' => ∃ t added, ws.registry.userType? name = some t ∧
        count ≤ t.variants.length + ws.registry.spareNames.length ∧
        VariantsSet ws ws' name count t added
    | .error _ ws' => ws'.graph = ws.graph ∧ ws'.supply = ws.supply ∧
        ((ws.registry.userType? name = none ∧ ws'.registry = ws.registry) ∨
          ∃ t, ws.registry.userType? name = some t ∧
            t.variants.length + ws.registry.spareNames.length < count ∧
            ws'.registry = ws.registry.withVariants name ws.registry.spareNames) ∧
        (ws' = ws ↔ ws.registry.userType? name = none ∨ ws.registry.spareNames = []) := by
  cases ht : ws.registry.userType? name with
  | none =>
    rw [setVariantCount_unknown ht]
    exact ⟨rfl, rfl, .inl ⟨rfl, rfl⟩, fun _ => .inl rfl, fun _ => rfl⟩
  | some t =>
    by_cases hcount : count ≤ t.variants.length + ws.registry.spareNames.length
    · obtain ⟨errors, ws', added, hok, hset⟩ := setVariantCount_set h.sound ht hcount
      rw [hok]
      exact ⟨t, added, rfl, hcount, hset⟩
    · have hmany := Nat.lt_of_not_le hcount
      rw [setVariantCount_exhausted ht hmany]
      refine ⟨rfl, rfl, .inr ⟨t, rfl, hmany, rfl⟩, fun heq => .inr ?_, ?_⟩
      · by_contra hspare
        have hsome : (ws.registry.userType? name).isSome := by rw [ht]; rfl
        exact Registry.withVariants_ne hsome hspare (congrArg Workspace.registry heq)
      · rintro (hnone | hspare)
        · cases hnone
        · rw [hspare, Registry.withVariants_nil]

/-- A type without variants, and a distinction of cases over it. -/
def caseOfTally : List Action := [.defineType "Tally" [], .addNode (.caseOf "Tally" [])]

theorem runAll_caseOfTally :
    ∃ ws : Workspace, empty.runAll caseOfTally = some ws ∧
      (∃ t, ws.registry.userType? "Tally" = some t ∧ t.variants = []) ∧
      ws.registry.isTaken Naming.constructorPlaceholder = false ∧
      ∃ errors ws', setVariantCount "Tally" 2 ws = .ok errors ws' ∧
        ∃ node, ws'.graph.node? 0 = some node ∧ node.inputs.length = 3 := by
  have hrun : ((empty.runAll caseOfTally).any fun ws =>
      ((ws.registry.userType? "Tally").any fun t => t.variants.isEmpty) &&
      !ws.registry.isTaken Naming.constructorPlaceholder &&
      (after? (setVariantCount "Tally" 2) ws).any fun ws' =>
        (ws'.graph.node? 0).any fun node => node.inputs.length = 3) = true := by
    simp only [caseOfTally, runAll, Action.run_defineType]
    cbv
  simp only [Option.any_eq_true, Bool.and_eq_true, Bool.not_eq_true', List.isEmpty_iff,
    decide_eq_true_eq] at hrun
  obtain ⟨ws, hws, ⟨htype, hfree⟩, ws', hset, hnode⟩ := hrun
  obtain ⟨errors, hok⟩ := after?_eq_some hset
  exact ⟨ws, hws, htype, hfree, errors, ws', hok, hnode⟩

/-- A refused edit can leave a type with more variants than before. -/
theorem exists_refused_grown : ∃ (ws ws' : Workspace) (e : EditError), ws.Visited ∧
    setVariantCount "Tally" 1001 ws = .error e ws' ∧ ws'.registry ≠ ws.registry := by
  obtain ⟨ws, hws, ⟨t, ht, hvariants⟩, hfree, _⟩ := runAll_caseOfTally
  -- No more than a thousand names are tried, and the first of them is not taken.
  have hcount : t.variants.length + ws.registry.spareNames.length < 1001 := by
    have hlen : ws.registry.spareNames.length ≤ 1000 := ws.registry.length_spareNames
    rw [hvariants, List.length_nil]
    omega
  have hspare : Naming.constructorPlaceholder ∈ ws.registry.spareNames :=
    Naming.mem_free.mpr ⟨List.mem_cons_self, hfree⟩
  refine ⟨ws, _, _, (Reachable.empty.runAll hws).visited, setVariantCount_exhausted ht hcount, ?_⟩
  exact Registry.withVariants_ne (by rw [ht]; rfl) (List.ne_nil_of_mem hspare)

/-- With two variants, the distinction of cases has three inputs. -/
theorem setVariantCount_outcome_caseOfTally :
    ∃ ws : Workspace, empty.runAll caseOfTally = some ws ∧
      ∃ errors ws', setVariantCount "Tally" 2 ws = .ok errors ws' ∧
        (∃ node, ws'.graph.node? 0 = some node ∧ node.inputs.length = 3) ∧
        ∃ t added, ws.registry.userType? "Tally" = some t ∧
          2 ≤ t.variants.length + ws.registry.spareNames.length ∧
          VariantsSet ws ws' "Tally" 2 t added := by
  obtain ⟨ws, hws, _, _, errors, ws', hok, hnode⟩ := runAll_caseOfTally
  have houtcome := setVariantCount_outcome (Reachable.empty.runAll hws).visited "Tally" 2
  rw [hok] at houtcome
  exact ⟨ws, hws, errors, ws', hok, hnode, houtcome⟩

end Workspace
end BlockGraph
