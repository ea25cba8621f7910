import BlockGraph.Proofs.Registry.Derivation
import BlockGraph.Proofs.Workspace.Revision

/-!
# Branches have a name for each field

A distinction of cases keeps names for the fields of its branches.  They are cut or
filled up whenever its signature is looked for, so they fit the type that it
distinguishes.  An edit of that type, if it changes the number of variants or of
fields, looks for the signature again, and no other edit changes these numbers.
-/

namespace BlockGraph

def fieldCounts (variants : List Variant) : List Nat :=
  variants.map fun v => v.fields.length

theorem length_addNames (count : Nat) (names : List String) :
    (addNames count names).length = names.length + count := by
  induction count generalizing names with
  | zero => rfl
  | succ count ih =>
    rw [addNames, ih, List.length_append, List.length_singleton]
    omega

theorem length_fitBranch (count : Nat) (names : List String) :
    (fitBranch count names).length = count := by
  rw [fitBranch, length_addNames, List.length_take]
  omega

theorem fitBranch_length (names : List String) : fitBranch names.length names = names := by
  rw [fitBranch, Nat.sub_self, List.take_length]
  rfl

theorem map_length_fitBinders (variants : List Variant) (binders : List (List String)) :
    (fitBinders variants binders).map List.length = fieldCounts variants := by
  induction variants generalizing binders with
  | nil => rfl
  | cons v rest ih =>
    rw [fitBinders, List.map_cons, length_fitBranch, ih]
    rfl

theorem fitBinders_of_counts {variants : List Variant} {binders : List (List String)}
    (h : binders.map List.length = fieldCounts variants) :
    fitBinders variants binders = binders := by
  induction variants generalizing binders with
  | nil =>
    rw [List.map_eq_nil_iff.mp h]
    rfl
  | cons v rest ih =>
    cases binders with
    | nil => cases h
    | cons names others =>
      obtain ⟨hfirst, hrest⟩ : names.length = v.fields.length ∧ _ := List.cons.inj h
      show fitBranch v.fields.length names :: fitBinders rest others = names :: others
      rw [← hfirst, fitBranch_length, ih hrest]

theorem fieldCounts_modify (variants : List Variant) (k : Nat) {f : Variant → Variant}
    (hf : ∀ v, (f v).fields = v.fields) :
    fieldCounts (variants.modify k f) = fieldCounts variants := by
  refine List.ext_getElem? fun i => ?_
  rw [fieldCounts, fieldCounts, List.getElem?_map, List.getElem?_map, List.getElem?_modify]
  cases variants[i]? with
  | none => rfl
  | some v =>
    show some (if k = i then f v else v).fields.length = some v.fields.length
    split
    · rw [hf]
    · rfl

namespace Block

variable {r r' : Registry} {block : Block} {type : String} {binders : List (List String)}

/-- A distinction of cases has a name for each field, if its type is known. -/
def NamesFields (r : Registry) (block : Block) : Prop :=
  ∀ type binders t, block = .caseOf type binders → r.userType? type = some t →
    binders.map List.length = fieldCounts t.variants

theorem NamesFields.syncBinders (h : block.NamesFields r) : block.syncBinders r = block := by
  cases block with
  | caseOf type binders =>
    rw [Block.syncBinders]
    cases ht : r.userType? type with
    | none => rfl
    | some t => simp only [fitBinders_of_counts (h type binders t rfl ht)]
  | _ => rfl

theorem syncBinders_namesFields (r : Registry) (block : Block) :
    (block.syncBinders r).NamesFields r := by
  intro type binders t hblock ht
  cases block with
  | caseOf type' binders' =>
    rw [syncBinders] at hblock
    split at hblock
    · next t' ht' =>
      cases hblock
      rw [ht] at ht'
      cases ht'
      exact map_length_fitBinders t.variants binders'
    · next hnone =>
      cases hblock
      rw [ht] at hnone
      cases hnone
  | _ => cases hblock

theorem NamesFields.of_counts (h : block.NamesFields r)
    (hcounts : ∀ type binders t', block = .caseOf type binders → r'.userType? type = some t' →
      ∃ t, r.userType? type = some t ∧ fieldCounts t'.variants = fieldCounts t.variants) :
    block.NamesFields r' := by
  intro type binders t' hblock ht'
  obtain ⟨t, ht, heq⟩ := hcounts type binders t' hblock ht'
  rw [heq]
  exact h type binders t hblock ht

theorem NamesFields.renameType {old new : String} (h : block.NamesFields r)
    (hfree : r.isKnownType new = false)
    (hknown : ∀ type binders, block = .caseOf type binders → ∃ t, r.userType? type = some t) :
    (block.renameType old new).NamesFields (r.renamed old new) := by
  intro type' binders' t' hblock ht'
  cases block with
  | caseOf type binders =>
    obtain ⟨t, ht⟩ := hknown type binders rfl
    cases hblock
    cases ht'.symm.trans (Registry.userType?_renamed (Registry.not_known hfree).2 ht)
    rw [h type _ t rfl ht]
    simp [fieldCounts, Registry.renamedType, Function.comp_def]
  | _ => cases hblock

theorem NamesFields.renameCtor {old candidate new : String} (h : block.NamesFields r)
    (hrename : Registry.renameCtor old candidate r = .ok new r') :
    (block.renameCtor old new).NamesFields r' := by
  have hblock : (block.renameCtor old new).NamesFields r := by
    intro type binders t hblock ht
    refine h type binders t ?_ ht
    cases block <;> simp_all [Block.renameCtor]
  refine hblock.of_counts fun type binders t' _ ht' => ?_
  rcases Registry.renameCtor_ok hrename with ⟨_, rfl⟩ | ⟨owner, k, _, _, rfl⟩
  · exact ⟨t', ht', rfl⟩
  rw [Registry.userType?_modifyType] at ht'
  · obtain ⟨t, ht, rfl⟩ := Option.map_eq_some_iff.mp ht'
    refine ⟨t, ht, ?_⟩
    split
    · exact fieldCounts_modify t.variants k fun _ => rfl
    · rfl
  · exact fun _ => rfl

end Block

namespace Workspace

variable {ws ws' : Workspace} {nodes : List NodeId}

/-- Every distinction of cases has a name for each field. -/
def NamesFields (ws : Workspace) : Prop :=
  ∀ n node, ws.graph.node? n = some node → node.block.NamesFields ws.registry

/-- A search for signatures leaves names that fit, if they fit in all nodes that are not on its
list. -/
theorem Revised.namesFields (h : Revised ws ws' nodes)
    (hnodes : ∀ n node, ws.graph.node? n = some node → n ∉ nodes →
      node.block.NamesFields ws.registry) : ws'.NamesFields := by
  intro n node hn
  rw [h.registry]
  rcases h.node n node hn with ⟨node₀, s₀, _, _, hinst⟩ | ⟨hn, hmem⟩
  · cases hinst with
    | found => exact Block.syncBinders_namesFields ws.registry node₀.block
    | missing => exact Block.syncBinders_namesFields ws.registry node₀.block
  · exact hnodes n node hn hmem

theorem NamesFields.run (h : ws.Sound) (hw : ws.NamesFields) {action : Action}
    (hrun : action.run ws = some ws') : ws'.NamesFields := by
  cases action.run_effect h hrun with
  | nodes hr => exact hr.namesFields fun n node hn _ => hw n node hn
  | redefined hd hr =>
    refine hr.namesFields fun m node hm hmem =>
      (hw m node hm).of_counts fun type binders t hblock ht => ?_
    exact ⟨t, (hd.userType? h hmem hm hblock).symm.trans ht, rfl⟩
  | @bindersRenamed _ n node _ _ _ type binders binders' hn hblock hcounts hr =>
    refine hr.namesFields fun m node' hm _ => ?_
    have hm := (Graph.node?_modifyNode hn _ m).symm.trans hm
    split at hm
    · cases hm
      intro type' bound t hblock' ht
      cases hblock'
      exact hcounts.trans (hw n node hn type binders t hblock ht)
    · exact hw m node' hm
  | typeRenamed _ _ hfree hr huntyped =>
    refine hr.namesFields fun m node hm hmem => ?_
    have htyped : node.untyped = none :=
      Classical.not_not.mp fun hne => hmem (huntyped m node hm hne)
    obtain ⟨node₀, hn₀, rfl⟩ := Graph.exists_node_renamed hm
    exact (hw m node₀ hn₀).renameType hfree fun type binders hblock =>
      (h.nodes m node₀ hn₀).caseOf type binders hblock htyped
  | ctorRenamed hrename =>
    intro m node hm
    obtain ⟨node₀, hn₀, rfl⟩ := Graph.exists_node_renameCtor hm
    exact (hw m node₀ hn₀).renameCtor hrename

theorem Reachable.namesFields (h : ws.Reachable) : ws.NamesFields := by
  induction h with
  | empty =>
    intro n node hn
    cases (empty_node? n).symm.trans hn
  | run h hrun ih => exact ih.run h.sound hrun
  | clear _ hok _ =>
    intro n node hn
    cases (clear_node? hok n).symm.trans hn

end Workspace
end BlockGraph
