import BlockGraph.Proofs.Workspace.Signatures

/-!
# Nodes that wait for a definition

A node whose signature cannot be found waits until it is looked for again.  Defining a
type or a function and giving a type another name look for the signatures of all
nodes that wait.  Giving a constructor a name does not, whether by renaming it or by
adding a variant to a type: a node may wait for a constructor that is there.

So two things hold of a node that waits.  What it needs is missing, or it waits for a
constructor.  And it is missing in any case if no constructor has been named since
the last search.
-/

namespace BlockGraph

theorem Node.LookedUp.not_known {node : Node} {r : Registry} {s s' : Supply}
    (h : node.LookedUp r s s') (huntyped : node.untyped ≠ none) : ¬ node.block.Known r := by
  obtain ⟨node₀, s₀, _, _, hinst⟩ := h
  cases hinst with
  | found _ _ => exact absurd rfl huntyped
  | missing herror =>
    intro hknown
    obtain ⟨x, hx⟩ := Block.derive_eq_ok_iff.mpr hknown
    rw [Block.derive_syncBinders, herror] at hx
    cases hx

namespace Workspace

variable {ws ws' : Workspace} {n : NodeId} {node : Node} {name old new candidate : String}
  {nodes : List NodeId} {registry : Registry} {supply : Supply} {action : Action} {ctors : Prop}

/-- What a node without a signature needs is missing, where `ctors` says whether this is meant of
nodes for constructors too. -/
def Missing (ws : Workspace) (ctors : Prop) : Prop :=
  ∀ n node, ws.graph.node? n = some node → node.untyped ≠ none →
    (∀ c, node.block = .ctor c → ctors) → ¬ node.block.Known ws.registry

theorem Revised.missing (h : Revised ws ws' nodes)
    (hkept : ∀ n node, ws.graph.node? n = some node → n ∉ nodes → node.untyped ≠ none →
      (∀ c, node.block = .ctor c → ctors) → ¬ node.block.Known ws.registry) :
    ws'.Missing ctors := by
  intro n node hn huntyped hctors
  rw [h.registry]
  rcases h.node n node hn with hlook | ⟨hn, hmem⟩
  · exact hlook.not_known huntyped
  · exact hkept n node hn hmem huntyped hctors

theorem Revised.missing_all (h : Revised ws ws' nodes)
    (hall : ∀ n node, ws.graph.node? n = some node → node.untyped ≠ none → n ∈ nodes) :
    ws'.Missing True :=
  h.missing fun n node hn hmem huntyped _ => absurd (hall n node hn huntyped) hmem

/-! ## Edits that look for the signatures of nodes that wait -/

/-- The edits after which no node waits for what is there. -/
def Action.retries (ws : Workspace) : Action → Bool
  | defineType _ _ | defineFunction _ _ => true
  | renameType old candidate =>
    match Workspace.renameType old candidate ws with
    | .ok new _ => new ≠ old
    | .error _ _ => false
  | _ => false

theorem Action.Redefines.mem_of_untyped (hd : action.Redefines ws registry supply nodes)
    (h : ws.Sound) (hretries : action.retries ws = true) (hn : ws.graph.node? n = some node)
    (huntyped : node.untyped ≠ none) : n ∈ nodes := by
  have hsome := Option.isSome_iff_ne_none.mpr huntyped
  cases hd with
  | defineType _ => exact (mem_nodesWhere h.graph).mpr ⟨node, hn, hsome⟩
  | defineFunction _ =>
    exact (mem_nodesWhere h.graph).mpr ⟨node, hn, by rw [hsome, Bool.true_or]⟩
  | _ => cases hretries

theorem Action.run_missing_all (h : ws.Sound) (hrun : action.run ws = some ws')
    (hretries : action.retries ws = true) : ws'.Missing True := by
  by_cases hredefines : action.redefines = true
  · obtain ⟨_, _, _, hd, rfl⟩ := action.run_redefines hredefines hrun
    exact (hd.revised h).missing_all fun n node => hd.mem_of_untyped h hretries
  cases action with
  | renameType old candidate =>
    obtain ⟨new, hok⟩ := after?_eq_some hrun
    rw [retries, hok] at hretries
    obtain ⟨_, _, _, _, _, hr, huntyped⟩ :=
      (renameType_revised h hok).resolve_left fun hsame => of_decide_eq_true hretries hsame.1
    exact hr.missing_all huntyped
  | _ => first | exact absurd rfl hredefines | cases hretries

/-! ## Edits that leave nodes waiting -/

/-- The edits that give a name to a constructor. -/
def Action.namesCtor (ws : Workspace) : Action → Bool
  | renameCtor _ _ => true
  | setVariantCount name count =>
    (ws.registry.userType? name).any fun t => t.variants.length < count
  | _ => false

namespace Missing

theorem of_changesType (hm : ws.Missing ctors) {registry : Registry}
    (hr : Revised { ws with registry, supply } ws' nodes)
    (hchanges : ws.registry.ChangesType registry name)
    (hctor : ctors → ∀ c, ws.registry.variant? c = none → registry.variant? c = none) :
    ws'.Missing ctors := by
  refine hr.missing fun n node hn _ huntyped hctors hknown => hm n node hn huntyped hctors ?_
  exact hknown.of_le hchanges.functions (fun type htype => hchanges.names ▸ htype)
    fun c hblock => hctor (hctors c hblock) c

theorem mono (hm : ws.Missing True) : ws.Missing ctors :=
  fun n node hn huntyped _ => hm n node hn huntyped fun _ _ => trivial

theorem redefined (h : ws.Sound) (hnamed : ws.registry.Named) (hm : ws.Missing ctors)
    (hd : action.Redefines ws registry supply nodes)
    (hr : Revised { ws with registry, supply } ws' nodes)
    (hnames : action.namesCtor ws = true → ¬ ctors) : ws'.Missing ctors := by
  by_cases hretries : action.retries ws = true
  · exact (hr.missing_all fun n node => hd.mem_of_untyped h hretries).mono
  cases hd with
  | deleteType hdelete =>
    refine hr.missing fun n node hn _ huntyped hctors hknown => hm n node hn huntyped hctors ?_
    refine hknown.of_le ?_ (fun type htype => ?_) fun c _ =>
      Registry.deleteType_variant?_none hdelete
    · obtain ⟨_, rfl⟩ := Registry.deleteType_ok hdelete
      rfl
    · obtain ⟨_, rfl⟩ := Registry.deleteType_ok hdelete
      simp only [Registry.mapFields, List.map_map] at htype
      obtain ⟨u, hu, rfl⟩ := List.mem_map.mp htype
      exact List.mem_map.mpr ⟨u, (List.mem_filter.mp hu).1, rfl⟩
  | setVariantCount hset =>
    refine hm.of_changesType hr (Registry.setVariantCount_changes hset) fun hctors c hnone => ?_
    obtain ⟨t, ht, _⟩ := Registry.setVariantCount_ok hset
    refine Registry.setVariantCount_variant?_none ht (Nat.not_lt.mp fun hlt => ?_) hset hnone
    exact hnames (by simp [Action.namesCtor, ht, hlt]) hctors
  | setFieldCount hset =>
    exact hm.of_changesType hr
      (Registry.editVariant_changes hnamed (fun _ _ => Registry.setFieldCount_ctor) hset)
      fun _ _ => Registry.editVariant_variant?_none (fun _ _ => Registry.setFieldCount_ctor) hset
  | setFieldType hset =>
    exact hm.of_changesType hr
      (Registry.editVariant_changes hnamed (fun _ _ => Registry.setFieldType_ctor) hset)
      fun _ _ => Registry.editVariant_variant?_none (fun _ _ => Registry.setFieldType_ctor) hset
  | _ => exact absurd rfl hretries

/-- A constructor with another name is known to no block but those for constructors. -/
theorem renameCtor (hm : ws.Missing ctors) (hnames : ¬ ctors)
    (hrename : Registry.renameCtor old candidate ws.registry = .ok new registry) :
    Missing { ws with registry, graph := ws.graph.renameCtor old new } ctors := by
  intro n node hn huntyped hctors hknown
  obtain ⟨node₀, hn₀, rfl⟩ := Graph.exists_node_renameCtor hn
  have hblock : node₀.block.renameCtor old new = node₀.block := by
    cases hb : node₀.block with
    | ctor c => exact absurd (hctors _ (by rw [Node.renameCtor, hb]; rfl)) hnames
    | _ => rfl
  rw [Node.renameCtor, hblock] at hctors hknown
  exact hm n node₀ hn₀ huntyped hctors (hknown.of_le (Registry.renameCtor_functions hrename)
    (fun type htype => Registry.renameCtor_names hrename ▸ htype)
    fun c hc => absurd (hctors c hc) hnames)

/-- A step keeps what is said of nodes that wait, and of those for constructors too unless it names
one. -/
theorem run (h : ws.Sound) (hu : ws.UpToDate) (hm : ws.Missing ctors)
    (hrun : action.run ws = some ws') (hnames : action.namesCtor ws = true → ¬ ctors) :
    ws'.Missing ctors := by
  cases action.run_effect h hrun with
  | nodes hr => exact hr.missing fun n node hn _ => hm n node hn
  | redefined hd hr => exact hm.redefined h hu.named hd hr hnames
  | @bindersRenamed _ n node _ _ _ type _ binders' hn hblock _ hr =>
    refine hr.missing fun m node' hm' _ huntyped hctors => ?_
    have hm' := (Graph.node?_modifyNode hn _ m).symm.trans hm'
    split at hm'
    · cases hm'
      have hmissing := hm n node hn huntyped fun c hc => by rw [hblock] at hc; cases hc
      rw [hblock] at hmissing
      exact hmissing
    · exact hm m node' hm' huntyped hctors
  | typeRenamed _ _ _ hr huntyped => exact (hr.missing_all huntyped).mono
  | ctorRenamed hrename => exact hm.renameCtor (hnames rfl) hrename

end Missing

/-! ## Runs -/

theorem missing_of_no_nodes (h : ∀ n, ws.graph.node? n = none) : ws.Missing ctors := by
  intro n node hn
  rw [h n] at hn
  cases hn

theorem Reachable.missing (h : ws.Reachable) : ws.Missing False := by
  induction h with
  | empty => exact missing_of_no_nodes empty_node?
  | run h hrun ih => exact ih.run h.sound h.upToDate hrun fun _ => not_false
  | clear _ hok _ => exact missing_of_no_nodes (clear_node? hok)

/-- The workspaces in which no constructor has been named since the last search for the signatures
of all nodes that wait. -/
inductive Retried : Workspace → Prop
  | empty : Retried empty
  | keep {ws ws' : Workspace} {action : Action} (h : Retried ws)
      (hnames : action.namesCtor ws = false) (hrun : action.run ws = some ws') : Retried ws'
  | retry {ws ws' : Workspace} {action : Action} (h : Reachable ws)
      (hretries : action.retries ws = true) (hrun : action.run ws = some ws') : Retried ws'
  | clear {ws ws' : Workspace} (h : Reachable ws) (hok : clear ws = .ok () ws') : Retried ws'

theorem Retried.reachable (h : ws.Retried) : ws.Reachable := by
  induction h with
  | empty => exact .empty
  | keep _ _ hrun ih => exact ih.run hrun
  | retry h _ hrun => exact h.run hrun
  | clear h hok => exact h.clear hok

theorem Retried.missing (h : ws.Retried) : ws.Missing True := by
  induction h with
  | empty => exact missing_of_no_nodes empty_node?
  | keep h hnames hrun ih =>
    exact ih.run h.reachable.sound h.reachable.upToDate hrun fun htrue => by
      rw [hnames] at htrue
      cases htrue
  | retry h hretries hrun => exact Action.run_missing_all h.sound hrun hretries
  | clear _ hok => exact missing_of_no_nodes (clear_node? hok)

/-- A node has no signature although one would be found for it. -/
def waitsInVain (ws : Workspace) (n : NodeId) : Bool :=
  (ws.graph.node? n).any fun node =>
    node.untyped.isSome && (node.block.derive ws.registry ws.supply).toBool

theorem waitsInVain_iff : ws.waitsInVain n = true ↔ ∃ node, ws.graph.node? n = some node ∧
    node.untyped ≠ none ∧ node.block.Known ws.registry := by
  rw [waitsInVain, Option.any_eq_true]
  refine exists_congr fun node => and_congr_right fun _ => ?_
  rw [Bool.and_eq_true, Option.isSome_iff_ne_none, ← Block.derive_eq_ok_iff (s := ws.supply)]
  refine and_congr_right fun _ => ?_
  cases node.block.derive ws.registry ws.supply with
  | ok x => exact ⟨fun _ => ⟨x, rfl⟩, fun _ => rfl⟩
  | error fault =>
    constructor
    · intro h
      cases h
    · rintro ⟨x, hx⟩
      cases hx

theorem waitsInVain_eq_false (h : ws.Missing True) (n : NodeId) : ws.waitsInVain n = false := by
  refine Bool.eq_false_iff.mpr fun hw => ?_
  obtain ⟨node, hn, huntyped, hknown⟩ := waitsInVain_iff.mp hw
  exact h n node hn huntyped (fun _ _ => trivial) hknown

/-- When a constructor gets another name, the nodes that waited for this name go on waiting, and no
others come to wait for what is there. -/
theorem waitsInVain_renameCtor (hnamed : ws.registry.Named) (hm : ws.Missing True)
    (hok : renameCtor old candidate ws = .ok new ws') :
    ws'.waitsInVain n = true ↔ ∃ node, ws.graph.node? n = some node ∧ node.block = .ctor new ∧
      node.untyped ≠ none := by
  obtain ⟨registry, hrename, rfl⟩ := renameCtor_eq hok
  have hm' := Missing.renameCtor hm.mono not_false hrename
  have hnode := ws.graph.node?_renameCtor old new n
  rw [waitsInVain_iff]
  constructor
  · rintro ⟨node, hn, huntyped, hknown⟩
    obtain ⟨node₀, hn₀, rfl⟩ := Option.map_eq_some_iff.mp (hnode.symm.trans hn)
    refine ⟨node₀, hn₀, ?_, huntyped⟩
    have hmissing := hm n node₀ hn₀ huntyped fun _ _ => trivial
    cases hblock : node₀.block with
    | ctor c =>
      rw [hblock] at hmissing
      have hnone : ws.registry.variant? c = none := Option.not_isSome_iff_eq_none.mp hmissing
      have hne : c ≠ old := by
        rintro rfl
        exact hmissing (Registry.renameCtor_old hrename)
      rw [Node.renameCtor, hblock, Block.renameCtor, if_neg hne] at hknown
      rw [(Registry.renameCtor_variant?_isSome_iff hnamed hrename hnone).mp hknown]
    | _ =>
      refine absurd hknown (hm' n _ hn huntyped fun c hc => ?_)
      rw [Node.renameCtor, hblock] at hc
      cases hc
  · rintro ⟨node₀, hn₀, hblock, huntyped⟩
    have hmissing := hm n node₀ hn₀ huntyped fun _ _ => trivial
    rw [hblock] at hmissing
    have hnone : ws.registry.variant? new = none := Option.not_isSome_iff_eq_none.mp hmissing
    refine ⟨node₀.renameCtor old new, ?_, huntyped, ?_⟩
    · exact hnode.trans (congrArg _ hn₀)
    · rw [Node.renameCtor, hblock, Block.renameCtor, ite_self]
      exact (Registry.renameCtor_variant?_isSome_iff hnamed hrename hnone).mpr rfl

/-- A node that waits for what is there waits for a constructor, and there is none if no constructor
has been named since the last search.  When a constructor gets a name, the nodes that wait for it
are left waiting. -/
theorem waitsInVain_only_ctors (h : ws.Reachable) :
    (∀ n, ws.waitsInVain n = true → ∃ node c, ws.graph.node? n = some node ∧ node.block = .ctor c) ∧
      (ws.Retried → ∀ n, ws.waitsInVain n = false) ∧
      ∀ old candidate new ws', renameCtor old candidate ws = .ok new ws' →
        (∀ n, ws.waitsInVain n = false) → ∀ n, ws'.waitsInVain n = true ↔
          ∃ node, ws.graph.node? n = some node ∧ node.block = .ctor new ∧ node.untyped ≠ none := by
  refine ⟨fun n hw => ?_, fun hr n => waitsInVain_eq_false hr.missing n,
    fun old candidate new ws' hok hnone n => ?_⟩
  · obtain ⟨node, hn, huntyped, hknown⟩ := waitsInVain_iff.mp hw
    by_contra hctor
    refine h.missing n node hn huntyped (fun c hc => hctor ⟨node, c, hn, hc⟩) hknown
  · refine waitsInVain_renameCtor h.upToDate.named (fun m node hm huntyped _ hknown => ?_) hok
    have hw := waitsInVain_iff.mpr ⟨node, hm, huntyped, hknown⟩
    rw [hnone m] at hw
    cases hw

/-- A node is added for a constructor that is there only after another one has got its name. -/
def circleLater : List Action :=
  [.addNode (.ctor "Circle"), .defineType "Shape" [⟨"Round", [some (.lit "Number" [])]⟩],
    .renameCtor "Round" "Circle"]

theorem runAll_circleLater :
    ∃ ws : Workspace, empty.runAll circleLater = some ws ∧ ws.waitsInVain 0 = true := by
  have hwaits : (empty.runAll circleLater).any (waitsInVain · 0) = true := by
    simp only [circleLater, runAll, Action.run_defineType]
    cbv
  exact (Option.any_eq_true _ _).mp hwaits

/-- Edits can lead to a node that waits for what is there. -/
theorem exists_waitsInVain : ∃ ws : Workspace, ws.Reachable ∧ ∃ n, ws.waitsInVain n = true := by
  obtain ⟨ws, hrun, hwaits⟩ := runAll_circleLater
  exact ⟨ws, Reachable.empty.runAll hrun, 0, hwaits⟩

/-- The node that waits is one for a constructor. -/
theorem waitsInVain_only_ctors_circleLater :
    ∃ ws : Workspace, empty.runAll circleLater = some ws ∧ ws.waitsInVain 0 = true ∧
      (∀ n, ws.waitsInVain n = true →
        ∃ node c, ws.graph.node? n = some node ∧ node.block = .ctor c) ∧
      (ws.Retried → ∀ n, ws.waitsInVain n = false) ∧
      ∀ old candidate new ws', renameCtor old candidate ws = .ok new ws' →
        (∀ n, ws.waitsInVain n = false) → ∀ n, ws'.waitsInVain n = true ↔
          ∃ node, ws.graph.node? n = some node ∧ node.block = .ctor new ∧ node.untyped ≠ none := by
  obtain ⟨ws, hrun, hwaits⟩ := runAll_circleLater
  exact ⟨ws, hrun, hwaits, waitsInVain_only_ctors (Reachable.empty.runAll hrun)⟩

end Workspace
end BlockGraph
