import BlockGraph.Proofs.Registry.Derivation
import BlockGraph.Proofs.Workspace.Revision

/-!
# Signatures are never stale

A node keeps the signature that was found for it, while the registry goes on
changing.  An edit of the registry looks for the signatures of those nodes again that
the edit may concern.  For all others the entries behind their signatures are the
same as before, so the search would find what they have, up to the variables that
stand for what is not set.  `UpToDate` is the invariant: it says this of every node
and of every supply that is used from now on.
-/

namespace BlockGraph

theorem Block.derive_syncBinders (r r' : Registry) (block : Block) (s : Supply) :
    (block.syncBinders r').derive r s = block.derive r s := by
  rcases syncBinders_eq r' block with heq | ⟨type, binders, binders', hblock, heq⟩
  · rw [heq]
  · rw [heq, hblock]
    rfl

namespace Node

variable {node : Node} {r r' : Registry} {s s' : Supply} {old new candidate : String}

/-- A search with a supply after the given one would find the signature that the node has. -/
def Current (r : Registry) (s : Supply) (node : Node) : Prop :=
  node.untyped = none → ∀ s₁ : Supply, s.next ≤ s₁.next → ∃ signature s₂,
    node.block.derive r s₁ = .ok (signature, s₂) ∧
      Option.Rel TyTerm.RenamesTo node.signature signature

theorem LookedUp.current (h : node.LookedUp r s s') (hr : r.Below s) : node.Current r s' := by
  obtain ⟨node₀, s₀, hle, hle', hinst⟩ := h
  cases hinst with
  | found hderive _ =>
    intro _ s₁ hs₁
    obtain ⟨signature, s₂, hderive', hrel⟩ :=
      Block.derive_renamesTo (hr.mono hle) (Nat.le_trans hle' hs₁) hderive
    exact ⟨signature, s₂, (Block.derive_syncBinders ..).trans hderive', hrel⟩
  | missing _ =>
    intro huntyped
    cases huntyped

theorem Current.of_entriesKept (h : node.Current r s) (hs : s.next ≤ s'.next)
    (hkept : node.untyped = none → node.block.EntriesKept r r') : node.Current r' s' := by
  intro htyped s₁ hs₁
  obtain ⟨signature, s₂, hderive, hrel⟩ := h htyped s₁ (Nat.le_trans hs hs₁)
  exact ⟨signature, s₂, Block.derive_of_entriesKept hderive (hkept htyped), hrel⟩

theorem Current.mono (h : node.Current r s) (hs : s.next ≤ s'.next) : node.Current r s' :=
  fun htyped s₁ hs₁ => h htyped s₁ (Nat.le_trans hs hs₁)

theorem Current.withBinders {type : String} {binders : List (List String)} (h : node.Current r s)
    (hblock : node.block = .caseOf type binders) (binders' : List (List String)) :
    Current r s { node with block := .caseOf type binders' } := by
  rw [Current, hblock] at h
  exact h

theorem Current.renameType (h : node.Current r s) (hr : r.Named)
    (hold : old ∈ r.types.map UserType.name) (hfree : r.isKnownType new = false) :
    (node.renameType old new).Current (r.renamed old new) s := by
  intro htyped s₁ hs₁
  obtain ⟨signature, s₂, hderive, hrel⟩ := h htyped s₁ hs₁
  refine ⟨_, s₂, Block.derive_renamed hr hold hfree hderive, ?_⟩
  show Option.Rel _ (node.signature.map (TyTerm.renameLiteral old new)) _
  generalize node.signature = stored at hrel
  cases hrel with
  | none => exact .none
  | some hrel => exact .some (hrel.renameLiteral old new)

theorem Current.renameCtor (h : node.Current r s) (hr : r.Named)
    (hok : Registry.renameCtor old candidate r = .ok new r') :
    (node.renameCtor old new).Current r' s := by
  intro htyped s₁ hs₁
  obtain ⟨signature, s₂, hderive, hrel⟩ := h htyped s₁ hs₁
  exact ⟨signature, s₂, Block.derive_renameCtor hr hok hderive, hrel⟩

end Node

theorem Node.Sound.length_inputs {node : Node} {r : Registry} (h : node.Sound r)
    (htyped : node.untyped = none) :
    node.inputs.length = (node.signature.map TyTerm.arity).getD 0 := by
  obtain ⟨scheme, hscheme, hlen⟩ := h.arity htyped
  rw [Node.sockets, List.length_append, List.length_singleton] at hlen
  rw [Node.scheme?] at hscheme
  split at hscheme
  · next t hsig =>
    cases hscheme
    rw [List.length_append, TyTerm.length_uncurry, List.length_singleton] at hlen
    rw [hsig]
    exact (Nat.succ.inj hlen).symm
  · next hsig _ =>
    cases hscheme
    rw [hsig]
    exact (Nat.succ.inj hlen).symm
  · cases hscheme

namespace Workspace

variable {ws ws' : Workspace} {n : NodeId} {node : Node} {nodes : List NodeId}

/-! ## The variables of the registry -/

theorem mem_fieldLeaves {variants : List Variant} {v : Variant} (hv : v ∈ variants) {ty : Ty}
    (hty : some ty ∈ v.fields) {x : TyVar} (hx : x ∈ ty.leaves) : x ∈ fieldLeaves variants := by
  rw [fieldLeaves, TyTerm.leavesAll_eq_flatMap]
  refine List.mem_flatMap.mpr ⟨ty, List.mem_flatMap.mpr ⟨v, hv, ?_⟩, hx⟩
  exact List.mem_filterMap.mpr ⟨some ty, hty, rfl⟩

/-- The variables of the types that a step gives to the workspace. -/
def Action.given : Action → List TyVar
  | addNode block => block.leaves
  | defineType _ variants => fieldLeaves variants
  | defineFunction _ ty => ty.leaves
  | setFieldType _ _ _ ty => ty.elim [] TyTerm.leaves
  | _ => []

namespace Action.Redefines

variable {action : Action} {registry : Registry} {supply : Supply}

/-- An edit brings no variables but those that it is given, and the supply is past them. -/
theorem hasVar (hd : action.Redefines ws registry supply nodes) {v : TyVar}
    (hv : registry.HasVar v) : ws.registry.HasVar v ∨ (v ∈ action.given ∧ v < supply.next) := by
  cases hd with
  | defineType hdefine =>
    refine (hv.of_defineType hdefine).imp_right ?_
    rintro ⟨w, hw, ty, hty, hv⟩
    have hmem := mem_fieldLeaves hw hty hv
    exact ⟨hmem, ws.supply.lt_past hmem⟩
  | defineFunction hdefine =>
    exact (hv.of_defineFunction hdefine).imp_right fun hv => ⟨hv, ws.supply.lt_past hv⟩
  | deleteType hdelete => exact .inl (hv.of_deleteType hdelete)
  | setVariantCount hset => exact .inl (hv.of_setVariantCount hset)
  | setFieldCount hset => exact .inl (hv.of_setFieldCount hset)
  | setFieldType hset =>
    refine (hv.of_setFieldType hset).imp_right ?_
    rintro ⟨t, rfl, hv⟩
    exact ⟨hv, ws.supply.lt_past hv⟩

theorem below (hd : action.Redefines ws registry supply nodes)
    (h : ws.registry.Below ws.supply) : registry.Below supply := by
  refine Registry.below_iff.mpr fun v hv => ?_
  rcases hd.hasVar hv with hv | ⟨_, hlt⟩
  · exact Nat.lt_of_lt_of_le (Registry.below_iff.mp h v hv) hd.supply_le
  · exact hlt

theorem named (hd : action.Redefines ws registry supply nodes) (h : ws.registry.Named) :
    registry.Named := by
  have hchanges {name : String} (hc : ws.registry.ChangesType registry name) : registry.Named :=
    h.of_sublist (by rw [hc.names])
  cases hd with
  | defineType hdefine => exact h.defineType hdefine
  | defineFunction hdefine =>
    obtain ⟨_, rfl⟩ := Registry.defineFunction_ok hdefine
    exact ⟨h.nodup, h.list⟩
  | deleteType hdelete => exact h.deleteType hdelete
  | setVariantCount hset => exact hchanges (Registry.setVariantCount_changes hset)
  | setFieldCount hset =>
    exact hchanges (Registry.editVariant_changes h (fun _ _ => Registry.setFieldCount_ctor) hset)
  | setFieldType hset =>
    exact hchanges (Registry.editVariant_changes h (fun _ _ => Registry.setFieldType_ctor) hset)

/-- The entries behind the signature of a node stay, if it is not looked for again. -/
theorem entriesKept (hd : action.Redefines ws registry supply nodes) (h : ws.Sound)
    (hnamed : ws.registry.Named) (hn : ws.graph.node? n = some node) (hmem : n ∉ nodes) :
    node.block.EntriesKept ws.registry registry := by
  cases hd with
  | defineType hdefine => exact Block.entriesKept_defineType hdefine node.block
  | defineFunction hdefine =>
    refine Block.entriesKept_defineFunction hdefine fun hblock => hmem ?_
    exact (mem_nodesWhere h.graph).mpr ⟨node, hn, by simp [hblock]⟩
  | deleteType hdelete =>
    obtain ⟨hname, hreferrers⟩ := dependsOn_of_not_concerned h.graph hn hmem
    exact Block.entriesKept_deleteType hdelete hname hreferrers
  | setVariantCount hset =>
    exact Block.entriesKept_changesType (Registry.setVariantCount_changes hset)
      (Registry.setVariantCount_keeps _ _ _ _ hset) (dependsOn_of_not_dependent h.graph hn hmem)
  | setFieldCount hset =>
    exact Block.entriesKept_changesType
      (Registry.editVariant_changes hnamed (fun _ _ => Registry.setFieldCount_ctor) hset)
      (Registry.editVariant_keeps _ _ _ _ _ hset) (dependsOn_of_not_dependent h.graph hn hmem)
  | setFieldType hset =>
    exact Block.entriesKept_changesType
      (Registry.editVariant_changes hnamed (fun _ _ => Registry.setFieldType_ctor) hset)
      (Registry.editVariant_keeps _ _ _ _ _ hset) (dependsOn_of_not_dependent h.graph hn hmem)

end Action.Redefines

/-- The variables of the registry have been taken from the supply. -/
structure Stocked (ws : Workspace) : Prop where
  started : Registry.preludeSupply.next ≤ ws.supply.next
  below : ws.registry.Below ws.supply

theorem Revised.stocked (h : Revised ws ws' nodes) (hs : ws.Stocked) : ws'.Stocked :=
  ⟨Nat.le_trans hs.started h.supply, h.registry ▸ hs.below.mono h.supply⟩

theorem Stocked.redefined (hs : ws.Stocked) {action : Action} {registry : Registry}
    {supply : Supply} (hd : action.Redefines ws registry supply nodes) :
    Stocked { ws with registry, supply } :=
  ⟨Nat.le_trans hs.started hd.supply_le, hd.below hs.below⟩

theorem Stocked.run (h : ws.Sound) (hs : ws.Stocked) {action : Action}
    (hrun : action.run ws = some ws') : ws'.Stocked := by
  cases action.run_effect h hrun with
  | nodes hr => exact hr.stocked hs
  | redefined hd hr => exact hr.stocked (hs.redefined hd)
  | bindersRenamed _ _ _ hr => exact hr.stocked ⟨hs.started, hs.below⟩
  | typeRenamed _ _ _ hr _ => exact hr.stocked ⟨hs.started, hs.below.renamed⟩
  | ctorRenamed hrename => exact ⟨hs.started, hs.below.renameCtor hrename⟩

/-! ## The invariant -/

/-- Every node has the signature that a search would find for it now. -/
structure UpToDate (ws : Workspace) : Prop extends Stocked ws where
  named : ws.registry.Named
  nodes : ∀ n node, ws.graph.node? n = some node → node.Current ws.registry ws.supply

/-- A search for signatures leaves a workspace up to date if all nodes are that are not on its
list. -/
theorem Revised.upToDate (h : Revised ws ws' nodes) (hs : ws.Stocked) (hnamed : ws.registry.Named)
    (hnodes : ∀ n node, ws.graph.node? n = some node → n ∉ nodes →
      node.Current ws.registry ws.supply) : ws'.UpToDate := by
  refine ⟨h.stocked hs, h.registry ▸ hnamed, fun n node hn => ?_⟩
  rw [h.registry]
  rcases h.node n node hn with hlook | ⟨hn, hmem⟩
  · exact hlook.current hs.below
  · exact (hnodes n node hn hmem).mono h.supply

theorem UpToDate.run (h : ws.Sound) (hu : ws.UpToDate) {action : Action}
    (hrun : action.run ws = some ws') : ws'.UpToDate := by
  cases action.run_effect h hrun with
  | nodes hr => exact hr.upToDate hu.toStocked hu.named fun n node hn _ => hu.nodes n node hn
  | redefined hd hr =>
    exact hr.upToDate (hu.toStocked.redefined hd) (hd.named hu.named) fun n node hn hmem =>
      (hu.nodes n node hn).of_entriesKept hd.supply_le fun _ => hd.entriesKept h hu.named hn hmem
  | @bindersRenamed _ n node _ _ _ type _ binders' hn hblock _ hr =>
    refine hr.upToDate ⟨hu.started, hu.below⟩ hu.named fun m node' hm _ => ?_
    have hm := (Graph.node?_modifyNode hn _ m).symm.trans hm
    split at hm
    · cases hm
      exact (hu.nodes n node hn).withBinders hblock binders'
    · exact hu.nodes m node' hm
  | @typeRenamed _ old _ new _ _ hold hfree hr _ =>
    refine hr.upToDate ⟨hu.started, hu.below.renamed⟩ (hu.named.renamed hfree) fun n node hn _ => ?_
    obtain ⟨node₀, hn₀, rfl⟩ := Graph.exists_node_renamed hn
    exact (hu.nodes n node₀ hn₀).renameType hu.named hold hfree
  | @ctorRenamed _ old _ new hrename =>
    refine ⟨⟨hu.started, hu.below.renameCtor hrename⟩, ?_, fun n node hn => ?_⟩
    · rcases Registry.renameCtor_ok hrename with ⟨_, rfl⟩ | ⟨owner, k, _, _, rfl⟩
      · exact hu.named
      · exact hu.named.of_modifyType fun _ => rfl
    · obtain ⟨node₀, hn₀, rfl⟩ := Graph.exists_node_renameCtor hn
      exact (hu.nodes n node₀ hn₀).renameCtor hu.named hrename

/-! ## What a run keeps -/

theorem withPrelude_named : Registry.withPrelude.Named :=
  ⟨List.nodup_nil, List.not_mem_nil⟩

theorem withPrelude_below : Registry.withPrelude.Below Registry.preludeSupply :=
  ⟨by decide, fun e he => absurd he List.not_mem_nil⟩

theorem Reachable.upToDate (h : ws.Reachable) : ws.UpToDate := by
  induction h with
  | empty =>
    refine ⟨⟨Nat.le_refl _, withPrelude_below⟩, withPrelude_named, fun n node hn => ?_⟩
    cases (empty_node? n).symm.trans hn
  | run h hrun ih => exact ih.run h.sound hrun
  | clear _ hok ih =>
    cases hok
    refine ⟨⟨ih.started, withPrelude_below.mono ih.started⟩, withPrelude_named, fun n node hn => ?_⟩
    cases (clear_node? rfl n).symm.trans hn

/-- A node that is typed has the signature that a search would find for it now, up to the names of
variables, and as many inputs as this signature has parameters.  Only a literal has no signature. -/
theorem signature_current (h : ws.Reachable) (hn : ws.graph.node? n = some node)
    (htyped : node.untyped = none) :
    ∃ signature supply, node.block.derive ws.registry ws.supply = .ok (signature, supply) ∧
      Option.Rel (fun a b => TyTerm.alphaEq a b = true) node.signature signature ∧
      node.inputs.length = (signature.map TyTerm.arity).getD 0 ∧
      (signature = none ↔ ∃ ty value, node.block = .literal ty value) := by
  obtain ⟨signature, supply, hderive, hrel⟩ :=
    h.upToDate.nodes n node hn htyped ws.supply (Nat.le_refl _)
  have hinputs := (h.sound.nodes n node hn).length_inputs htyped
  refine ⟨signature, supply, hderive, ?_, ?_, (Block.derive_spec hderive).2.1, ?_⟩
  · generalize node.signature = stored at hrel
    cases hrel with
    | none => exact .none
    | some hrel => exact .some (TyTerm.alphaEq_iff.mpr hrel)
  · rw [hinputs]
    generalize node.signature = stored at hrel
    cases hrel with
    | none => rfl
    | some hrel => exact hrel.arity_eq.symm
  · rintro ⟨ty, value, hblock⟩
    rw [hblock, ← Block.derives_iff] at hderive
    cases hderive
    rfl

/-- A function gets another signature after a node has been added for it. -/
def redefinedFunction : List Action :=
  [.defineFunction "pick" (.fn (.var 0) (.var 0)), .addNode (.function "pick"),
    .defineFunction "pick" (.curried [.var 0, .var 1] (.var 1))]

/-- The node has the second signature, and an input more. -/
theorem signature_current_redefinedFunction :
    ∃ ws : Workspace, empty.runAll redefinedFunction = some ws ∧
      ∃ node : Node, ws.graph.node? 0 = some node ∧ node.untyped = none ∧ node.inputs = [1, 2] ∧
        ∃ signature supply, node.block.derive ws.registry ws.supply = .ok (signature, supply) ∧
          Option.Rel (fun a b => TyTerm.alphaEq a b = true) node.signature signature ∧
          node.inputs.length = (signature.map TyTerm.arity).getD 0 ∧
          (signature = none ↔ ∃ ty value, node.block = .literal ty value) := by
  have hrun : (empty.runAll redefinedFunction).isSome := by cbv
  have hsome := (Option.some_get hrun).symm
  have hnode : (((empty.runAll redefinedFunction).get hrun).graph.node? 0).isSome := by cbv
  have hn := (Option.some_get hnode).symm
  have htyped : ((((empty.runAll redefinedFunction).get hrun).graph.node? 0).get hnode).untyped =
      none := by cbv
  exact ⟨_, hsome, _, hn, htyped, by cbv,
    signature_current (Reachable.empty.runAll hsome) hn htyped⟩

end Workspace
end BlockGraph
