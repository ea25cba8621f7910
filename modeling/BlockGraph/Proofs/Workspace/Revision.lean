import BlockGraph.Proofs.Workspace.Principal

/-!
# What an edit does to nodes

An edit changes a few nodes or the registry by itself.  Then it looks for the
signatures of the nodes on a list, and rebuilds components, which leaves nodes as
they are.  `Revised` says this of the second part.  `Action.Effect` says of each
edit what its first part is and which nodes are on the list, so that an invariant of
nodes has to be shown of the first part only.
-/

namespace BlockGraph

namespace Block

variable {block : Block} {ty : Ty} {old new value : String}

theorem literal_of_renameType (h : block.renameType old new = .literal ty value) :
    ∃ ty', block = .literal ty' value := by
  cases block with
  | literal ty' _ =>
    cases h
    exact ⟨ty', rfl⟩
  | _ => cases h

theorem literal_of_renameCtor (h : block.renameCtor old new = .literal ty value) :
    block = .literal ty value := by
  cases block with
  | literal _ _ => exact h
  | _ => cases h

end Block

/-- Two nodes differ in nothing but names and types. -/
structure Node.Resembles (node node' : Node) : Prop where
  untyped : node'.untyped = node.untyped
  signature : node.signature = none → node'.signature = none
  inputs : node'.inputs = node.inputs
  literal : ∀ ty value, node'.block = .literal ty value → ∃ ty', node.block = .literal ty' value

namespace Workspace

variable {ws ws₁ ws' : Workspace} {n : NodeId} {name old new candidate : String}
  {nodes : List NodeId} {errors : List TypeError} {i o : SocketId} {supply : Supply}
  {action : Action}

/-- Literals take no inputs, also where their type is not known. -/
def LiteralsClosed (ws : Workspace) : Prop :=
  ∀ n node ty value, ws.graph.node? n = some node → node.block = .literal ty value →
    node.inputs = []

/-- Every node has been looked up in the registry, or it is the same as before and not on the list.
Either way a literal gets no inputs. -/
structure Revised (ws ws' : Workspace) (nodes : List NodeId) : Prop where
  registry : ws'.registry = ws.registry
  supply : ws.supply.next ≤ ws'.supply.next
  node : ∀ n node, ws'.graph.node? n = some node →
    node.LookedUp ws.registry ws.supply ws'.supply ∨ (ws.graph.node? n = some node ∧ n ∉ nodes)
  literals : ws.LiteralsClosed → ws'.LiteralsClosed

theorem revised_of_nodes (hregistry : ws'.registry = ws.registry)
    (hsupply : ws.supply.next ≤ ws'.supply.next)
    (hnode : ∀ n node, ws'.graph.node? n = some node → ws.graph.node? n = some node) :
    Revised ws ws' [] :=
  ⟨hregistry, hsupply, fun n node hn => .inr ⟨hnode n node hn, List.not_mem_nil⟩,
    fun hclosed n node ty value hn => hclosed n node ty value (hnode n node hn)⟩

theorem SameShape.revised (h : SameShape ws ws') (hsupply : ws.supply.next ≤ ws'.supply.next) :
    Revised ws ws' [] :=
  revised_of_nodes h.registry hsupply fun n _ hn => (h.node? n).symm.trans hn

theorem Revised.trans (h : Revised ws ws₁ nodes) (h' : Revised ws₁ ws' []) :
    Revised ws ws' nodes := by
  refine ⟨h'.registry.trans h.registry, Nat.le_trans h.supply h'.supply, fun n node hn => ?_,
    fun hclosed => h'.literals (h.literals hclosed)⟩
  rcases h'.node n node hn with hlook | ⟨hn, _⟩
  · rw [h.registry] at hlook
    exact .inl (hlook.mono h.supply (Nat.le_refl _))
  · exact (h.node n node hn).imp_left fun hlook => hlook.mono (Nat.le_refl _) h'.supply

/-! ## Rebuilding -/

theorem foldl_modifySocket_revised (ws : Workspace) {α : Type} (key : α → SocketId)
    (f : α → Socket → Socket) (hf : ∀ x socket, (f x socket).bare = socket.bare) (list : List α)
    (hsupply : ws.supply.next ≤ supply.next) :
    Revised ws
      { ws with graph := list.foldl (fun g x => g.modifySocket (key x) (f x)) ws.graph, supply }
      [] := by
  obtain ⟨houtline, hnodes⟩ := Graph.outline_foldl_modifySocket key f hf ws.graph list
  exact SameShape.revised ⟨hnodes, houtline, rfl⟩ hsupply

theorem freshInstance_revised (ws : Workspace) (n : NodeId) :
    Revised ws (ws.freshInstance n) [] := by
  cases hn : ws.graph.node? n with
  | none =>
    rw [freshInstance, hn]
    exact (SameShape.refl ws).revised (Nat.le_refl _)
  | some node =>
    obtain ⟨types, supply, hws, _, hsupply, _⟩ := freshInstance_eq hn
    rw [hws]
    exact foldl_modifySocket_revised ws Prod.fst
      (fun (e : SocketId × Ty) socket => { socket with ty := e.2 }) (fun _ _ => rfl) types hsupply

theorem foldl_freshInstance_revised (ws : Workspace) (nodes : List NodeId) :
    Revised ws (nodes.foldl freshInstance ws) [] := by
  induction nodes generalizing ws with
  | nil => exact (SameShape.refl ws).revised (Nat.le_refl _)
  | cons n rest ih => exact (freshInstance_revised ws n).trans (ih _)

theorem recompute_revised (ws : Workspace) (seeds : List SocketId) :
    Revised ws (ws.recompute seeds).2 [] := by
  have hfresh := foldl_freshInstance_revised ws (ws.graph.component seeds).nodes
  simp only [recompute]
  split
  · refine hfresh.trans (foldl_modifySocket_revised _ id _ ?_ _ (Nat.le_refl _))
    exact fun _ _ => rfl
  · refine hfresh.trans (foldl_modifySocket_revised _ id _ ?_ _ (Nat.le_refl _))
    exact fun _ _ => rfl

theorem recomputeEach_revised (ws : Workspace) (nodes : List NodeId) :
    Revised ws (ws.recomputeEach nodes).2 [] := by
  induction nodes generalizing ws with
  | nil => exact (SameShape.refl ws).revised (Nat.le_refl _)
  | cons n rest ih => exact (recompute_revised ws _).trans (ih _)

/-- Looking for the signature of a literal leaves it without inputs: its type asks for none, and if
the type is not known, the inputs stay. -/
theorem install_literal {node : Node} {ty : Ty} {value : String} (hn : ws.graph.node? n = some node)
    (hblock : node.block = .literal ty value) (hinputs : node.inputs = []) :
    ∃ node', (ws.install n).2.graph.node? n = some node' ∧ node'.inputs = [] := by
  obtain ⟨f, supply, hinstall, hf⟩ : ∃ (f : Node → Node) (supply : Supply),
      ws.install n = { ws with graph := ws.graph.modifyNode n f, supply }.resizeInputs n 0 0 ∧
      ∀ node, (f node).inputs = node.inputs := by
    simp only [install, hn, hblock, hinputs, Block.derive, List.length_nil]
    cases ws.registry.unknownIn? ty with
    | none => exact ⟨_, _, rfl, fun _ => rfl⟩
    | some name => exact ⟨_, _, rfl, fun _ => rfl⟩
  refine ⟨f node, ?_, (hf node).trans hinputs⟩
  rw [hinstall]
  show (ws.graph.modifyNode n f).node? n = some (f node)
  rw [Graph.node?_modifyNode hn, if_pos rfl]

theorem install_literals (h : ws.graph.WellFormed) (hbelow : Below ws.graph ws.supply)
    (hclosed : ws.LiteralsClosed) (n : NodeId) : (ws.install n).2.LiteralsClosed := by
  cases hn : ws.graph.node? n with
  | none =>
    rw [install, hn]
    exact hclosed
  | some node =>
    obtain ⟨displaced, graph, supply, hinstall, honly, _, _, ⟨node', hnode', hinst⟩, _⟩ :=
      install_spec h hn hbelow
    intro m found ty value hm hblock
    by_cases hmn : m = n
    · subst hmn
      have hliteral : node.block = .literal ty value := by
        rw [hinstall, hnode'] at hm
        cases hm
        cases hinst with
        | found => exact Block.syncBinders_eq_literal hblock
        | missing => exact Block.syncBinders_eq_literal hblock
      obtain ⟨node'', hnode'', hinputs⟩ :=
        install_literal hn hliteral (hclosed m node ty value hn hliteral)
      rw [hnode''] at hm
      cases hm
      exact hinputs
    · rw [hinstall] at hm
      exact hclosed m found ty value ((honly.node m hmn).symm.trans hm) hblock

theorem installAll_literals (h : ws.graph.WellFormed) (hbelow : Below ws.graph ws.supply)
    (hclosed : ws.LiteralsClosed) (nodes : List NodeId) :
    (ws.installAll nodes).2.LiteralsClosed := by
  induction nodes generalizing ws with
  | nil => exact hclosed
  | cons n rest ih =>
    exact ih (install_wellFormed h hbelow n) (install_below h hbelow n)
      (install_literals h hbelow hclosed n)

theorem install_revised (h : ws.graph.WellFormed) (hbelow : Below ws.graph ws.supply) (n : NodeId) :
    Revised ws (ws.install n).2 [n] := by
  cases hn : ws.graph.node? n with
  | none =>
    rw [install, hn]
    refine ⟨rfl, Nat.le_refl _, fun m node hm => .inr ⟨hm, fun hmem => ?_⟩, id⟩
    rw [List.mem_singleton.mp hmem, hn] at hm
    cases hm
  | some node =>
    obtain ⟨displaced, graph, supply, hinstall, honly, _, hle, ⟨node', hnode', hinst⟩, _⟩ :=
      install_spec h hn hbelow
    have hliterals := fun hclosed => install_literals h hbelow hclosed n
    rw [hinstall] at hliterals ⊢
    refine ⟨rfl, hle, fun m found hm => ?_, hliterals⟩
    by_cases hmn : m = n
    · subst hmn
      rw [hnode'] at hm
      cases hm
      exact .inl ⟨node, ws.supply, Nat.le_refl _, hle, hinst⟩
    · exact .inr ⟨(honly.node m hmn).symm.trans hm, fun hmem => hmn (List.mem_singleton.mp hmem)⟩

theorem rebuild_revised (h : ws.graph.WellFormed) (hbelow : Below ws.graph ws.supply)
    (nodes : List NodeId) : Revised ws (ws.rebuild nodes).2 nodes := by
  obtain ⟨seeds, graph, supply, hall, ⟨_, honly, _⟩, _, hle, hnodes⟩ :=
    installAll_spec h hbelow nodes
  have hliterals := fun hclosed => installAll_literals h hbelow hclosed nodes
  have hinstalled : Revised ws (ws.installAll nodes).2 nodes := by
    rw [hall] at hliterals ⊢
    refine ⟨rfl, hle, fun m node hm => ?_, hliterals⟩
    by_cases hmem : m ∈ nodes
    · exact .inl (hnodes m hmem node hm).1
    · exact .inr ⟨(honly.node m hmem).symm.trans hm, hmem⟩
  exact hinstalled.trans (recompute_revised _ _)

/-! ## Edits of nodes and links -/

theorem addNode_revised (h : ws.Sound) {block : Block} (hok : addNode block ws = .ok n ws') :
    Revised ws ws' [] := by
  obtain ⟨n', s, graph, hinsert, hwf, _, _, _, hnode, hsocket⟩ :=
    Graph.insertNode_spec h.graph block (ws.supply.past block.leaves).fresh.1
  have hpast := ws.supply.le_past block.leaves
  have hsupply : ws.supply.next ≤ (ws.supply.past block.leaves).fresh.2.next :=
    Nat.le_succ_of_le hpast
  have hr := @install_revised { ws with graph, supply := (ws.supply.past block.leaves).fresh.2 } hwf
    (below_of_insert h.below hpast hsocket) n'
  simp only [addNode, hinsert] at hok
  cases hok
  refine Revised.trans ⟨hr.registry, Nat.le_trans hsupply hr.supply, fun m node hm => ?_,
    fun hclosed => hr.literals fun m node ty value hm hblock => ?_⟩ (recompute_revised _ _)
  · rcases hr.node m node hm with hlook | ⟨hm, hmem⟩
    · exact .inl (hlook.mono hsupply (Nat.le_refl _))
    · have hne : m ≠ n := fun he => hmem (List.mem_singleton.mpr he)
      refine .inr ⟨?_, List.not_mem_nil⟩
      rw [← hm]
      exact ((hnode m).trans (if_neg hne)).symm
  · have hm : graph.node? m = some node := hm
    rw [hnode] at hm
    split at hm
    · cases hm
      rfl
    · exact hclosed m node ty value hm hblock

theorem setArity_revised (h : ws.Sound) {items : Nat} (hok : setArity n items ws = .ok errors ws') :
    Revised ws ws' [] := by
  rw [setArity] at hok
  split at hok
  · cases hok
  next node hn =>
  split at hok
  · have honly : Graph.OnlyAt ws.graph
        (ws.graph.modifyNode n fun node => { node with block := .list items }) (· = n) [] :=
      Graph.modifyNode_onlyAt h.graph n fun _ => rfl
    have hr := @install_revised
      { ws with graph := ws.graph.modifyNode n fun node => { node with block := .list items } }
      honly.wellFormed h.below n
    cases hok
    refine Revised.trans ⟨hr.registry, hr.supply, fun m node hm => ?_,
      fun hclosed => hr.literals fun m node ty value hm hblock => ?_⟩ (recompute_revised _ _)
    · rcases hr.node m node hm with hlook | ⟨hm, hmem⟩
      · exact .inl hlook
      · have hne : m ≠ n := fun he => hmem (List.mem_singleton.mpr he)
        exact .inr ⟨(honly.node m hne).symm.trans hm, List.not_mem_nil⟩
    · have hm := (Graph.node?_modifyNode hn _ m).symm.trans hm
      split at hm
      · cases hm
        cases hblock
      · exact hclosed m node ty value hm hblock
  · cases hok

theorem removeNode_revised (h : ws.Sound) (hok : removeNode n ws = .ok errors ws') :
    Revised ws ws' [] := by
  cases hn : ws.graph.node? n with
  | none =>
    rw [removeNode, Graph.removeNode, hn] at hok
    cases hok
  | some node =>
    obtain ⟨peers, graph, hremove, _, hnode, _⟩ := Graph.removeNode_spec h.graph hn
    rw [removeNode, hremove] at hok
    cases hok
    have hremoved : Revised ws { ws with graph } [] := by
      refine revised_of_nodes rfl (Nat.le_refl _) fun m node hm => ?_
      have hm : graph.node? m = some node := hm
      rw [hnode] at hm
      split at hm
      · cases hm
      · exact hm
    exact hremoved.trans (recompute_revised _ _)

theorem disconnect_revised (h : ws.Sound) (hok : disconnect o i ws = .ok errors ws') :
    Revised ws ws' [] := by
  rw [disconnect] at hok
  split at hok
  · cases hok
  next graph hunwire =>
  obtain ⟨_, hnodes, _⟩ := Graph.unwire?_spec h.graph hunwire
  cases hok
  have hunwired : Revised ws { ws with graph } [] :=
    revised_of_nodes rfl (Nat.le_refl _) fun m node hm => by rw [Graph.node?, ← hnodes]; exact hm
  exact hunwired.trans (recompute_revised _ _)

theorem connect_revised (h : ws.Sound) (hok : connect o i ws = .ok () ws') : Revised ws ws' [] := by
  obtain ⟨p, c, z, hl, _, _, hm⟩ := connect_ok h.graph hok
  refine revised_of_nodes hm.sameShape.registry ?_ fun n node hn => ?_
  · rw [hm.supply]
    exact (linkScope_listed ws o i).supply
  · exact (hm.sameShape.node? n).symm.trans hn

theorem attach_revised (hok : attach o i ws = .ok () ws') : Revised ws ws' [] := by
  obtain ⟨_, rfl⟩ := attach_ok hok
  exact revised_of_nodes rfl (Nat.le_refl _) fun _ _ hn => hn

/-- Giving a field another name in a branch changes the names of one node. -/
theorem renameBinder_revised {branch field : Nat} {given : String}
    (hok : renameBinder n branch field name ws = .ok given ws') :
    ∃ node type binders binders', ws.graph.node? n = some node ∧ node.block = .caseOf type binders ∧
      binders'.map List.length = binders.map List.length ∧
      Revised { ws with graph := ws.graph.modifyNode n fun node =>
        { node with block := .caseOf type binders' } } ws' [] := by
  obtain ⟨node, type, binders, names, hn, hblock, hnames, rfl⟩ := renameBinder_eq hok
  refine ⟨node, type, binders, _, hn, hblock, ?_, recompute_revised _ _⟩
  have hcount : (binders.map List.length)[branch]? = some names.length := by
    rw [List.getElem?_map, hnames, Option.map_some]
  obtain ⟨hlt, hcount⟩ := List.getElem?_eq_some_iff.mp hcount
  rw [List.map_set, List.length_set, ← hcount, List.set_getElem_self]

/-! ## Edits of definitions -/

theorem Action.Redefines.revised {registry : Registry}
    (hd : action.Redefines ws registry supply nodes) (h : ws.Sound) :
    Revised { ws with registry, supply } ({ ws with registry, supply }.rebuild nodes).2 nodes :=
  @rebuild_revised { ws with registry, supply } h.graph (fun s socket hs v hv =>
    Nat.lt_of_lt_of_le (h.below s socket hs v hv) hd.supply_le) nodes

theorem renameType_revised (h : ws.Sound) (hok : renameType old candidate ws = .ok new ws') :
    (new = old ∧ ws' = ws) ∨
      (new ≠ old ∧
        Registry.renameType old candidate ws.registry = .ok new (ws.registry.renamed old new) ∧
        old ∈ ws.registry.types.map UserType.name ∧
        ws.registry.isKnownType new = false ∧ ∃ nodes,
          Revised { ws with
            registry := ws.registry.renamed old new
            graph := ws.graph.renamed old new } ws' nodes ∧
          ∀ n node, (ws.graph.renamed old new).node? n = some node → node.untyped ≠ none →
            n ∈ nodes) := by
  refine (renameType_ok h.graph hok).imp_right ?_
  rintro ⟨registry, hne, hrename, hr, rfl⟩
  obtain ⟨_, hold, hpropose, rfl⟩ :=
    (Registry.renameType_ok hrename).resolve_left fun hsame => hne hsame.1
  have hsound := hr.sound_workspace h
  refine ⟨hne, hrename, hold, Registry.proposeTypeName_free hpropose, _,
    rebuild_revised hsound.graph hsound.below _,
    fun n node hn huntyped => (mem_nodesWhere hsound.graph).mpr ⟨node, hn, ?_⟩⟩
  exact Option.isSome_iff_ne_none.mpr huntyped

/-! ## Steps -/

/-- What an edit does to nodes before it looks for signatures. -/
inductive Action.Effect (ws : Workspace) : Workspace → Action → Prop
  | nodes {ws' : Workspace} {action : Action} (hr : Revised ws ws' []) : Effect ws ws' action
  | redefined {ws' : Workspace} {action : Action} {registry : Registry} {supply : Supply}
      {nodes : List NodeId} (hd : action.Redefines ws registry supply nodes)
      (hr : Revised { ws with registry, supply } ws' nodes) : Effect ws ws' action
  | bindersRenamed {ws' : Workspace} {n : NodeId} {node : Node} {branch field : Nat}
      {name type : String} {binders binders' : List (List String)}
      (hn : ws.graph.node? n = some node) (hblock : node.block = .caseOf type binders)
      (hcounts : binders'.map List.length = binders.map List.length)
      (hr : Revised { ws with graph := ws.graph.modifyNode n fun node =>
        { node with block := .caseOf type binders' } } ws' []) :
      Effect ws ws' (.renameBinder n branch field name)
  | typeRenamed {ws' : Workspace} {old candidate new : String} {nodes : List NodeId}
      (hrename :
        Registry.renameType old candidate ws.registry = .ok new (ws.registry.renamed old new))
      (hold : old ∈ ws.registry.types.map UserType.name)
      (hfree : ws.registry.isKnownType new = false)
      (hr : Revised { ws with
        registry := ws.registry.renamed old new
        graph := ws.graph.renamed old new } ws' nodes)
      (huntyped : ∀ n node, (ws.graph.renamed old new).node? n = some node → node.untyped ≠ none →
        n ∈ nodes) : Effect ws ws' (.renameType old candidate)
  | ctorRenamed {registry : Registry} {old candidate new : String}
      (hrename : Registry.renameCtor old candidate ws.registry = .ok new registry) :
      Effect ws { ws with registry, graph := ws.graph.renameCtor old new }
        (.renameCtor old candidate)

theorem Action.run_effect (h : ws.Sound) (hrun : action.run ws = some ws') :
    action.Effect ws ws' := by
  by_cases hredefines : action.redefines = true
  · obtain ⟨_, _, _, hd, rfl⟩ := action.run_redefines hredefines hrun
    exact .redefined hd (hd.revised h)
  cases action with
  | addNode block =>
    have hrun : after? (Workspace.addNode block) ws = some ws' := hrun
    obtain ⟨_, hok⟩ := after?_eq_some hrun
    exact .nodes (addNode_revised h hok)
  | removeNode n =>
    obtain ⟨_, hok⟩ := after?_eq_some hrun
    exact .nodes (removeNode_revised h hok)
  | connect output input =>
    obtain ⟨_, hok⟩ := after?_eq_some hrun
    exact .nodes (connect_revised h hok)
  | disconnect output input =>
    obtain ⟨_, hok⟩ := after?_eq_some hrun
    exact .nodes (disconnect_revised h hok)
  | setArity n items =>
    obtain ⟨_, hok⟩ := after?_eq_some hrun
    exact .nodes (setArity_revised h hok)
  | renameBinder n branch field name =>
    obtain ⟨_, hok⟩ := after?_eq_some hrun
    obtain ⟨_, _, _, _, hn, hblock, hcounts, hr⟩ := renameBinder_revised hok
    exact .bindersRenamed hn hblock hcounts hr
  | renameType old candidate =>
    obtain ⟨_, hok⟩ := after?_eq_some hrun
    rcases renameType_revised h hok with ⟨_, rfl⟩ | ⟨_, hrename, hold, hfree, _, hr, huntyped⟩
    · exact .nodes ((SameShape.refl ws').revised (Nat.le_refl _))
    · exact .typeRenamed hrename hold hfree hr huntyped
  | renameCtor old candidate =>
    obtain ⟨_, hok⟩ := after?_eq_some hrun
    obtain ⟨_, hrename, rfl⟩ := renameCtor_eq hok
    exact .ctorRenamed hrename
  | attach output input =>
    obtain ⟨_, hok⟩ := after?_eq_some hrun
    exact .nodes (attach_revised hok)
  | resolveAll =>
    cases hrun
    exact .nodes (recomputeEach_revised ws _)
  | _ => exact absurd rfl hredefines

/-- A property of the nodes of a workspace is kept by every edit, if it is kept where signatures are
looked for, and where nothing but names changes in nodes. -/
theorem Action.run_nodes {P : Workspace → Prop} (h : ws.Sound) (hrun : action.run ws = some ws')
    (hrevised : ∀ ws ws' nodes, Revised ws ws' nodes → P ws → P ws')
    (hresembles : ∀ ws ws', (∀ n node', ws'.graph.node? n = some node' →
      ∃ node, ws.graph.node? n = some node ∧ node.Resembles node') → P ws → P ws') (hP : P ws) :
    P ws' := by
  have hsame : ∀ node : Node, node.Resembles node :=
    fun node => ⟨rfl, id, rfl, fun ty _ hblock => ⟨ty, hblock⟩⟩
  cases action.run_effect h hrun with
  | nodes hr => exact hrevised _ _ _ hr hP
  | redefined _ hr =>
    exact hrevised _ _ _ hr (hresembles ws _ (fun m node hm => ⟨node, hm, hsame node⟩) hP)
  | @bindersRenamed _ n node _ _ _ _ _ _ hn _ _ hr =>
    refine hrevised _ _ _ hr (hresembles ws _ (fun m node' hm => ?_) hP)
    have hm := (Graph.node?_modifyNode hn _ m).symm.trans hm
    split at hm
    · next hmn =>
      cases hm
      exact ⟨node, hmn ▸ hn, rfl, id, rfl, fun _ _ hblock => by cases hblock⟩
    · exact ⟨node', hm, hsame node'⟩
  | @typeRenamed _ old _ new _ _ _ _ hr _ =>
    refine hrevised _ _ _ hr (hresembles ws _ (fun m node' hm => ?_) hP)
    obtain ⟨node, hn, rfl⟩ := Graph.exists_node_renamed hm
    refine ⟨node, hn, rfl, fun hnone => ?_, rfl,
      fun _ _ hblock => Block.literal_of_renameType hblock⟩
    exact Option.map_eq_none_iff.mpr hnone
  | @ctorRenamed _ old _ new _ =>
    refine hresembles ws _ (fun m node' hm => ?_) hP
    obtain ⟨node, hn, rfl⟩ := Graph.exists_node_renameCtor hm
    exact ⟨node, hn, rfl, id, rfl, fun ty _ hblock => ⟨ty, Block.literal_of_renameCtor hblock⟩⟩

/-! ## Runs -/

/-- The workspaces that edits lead to, if none of them is refused. -/
inductive Reachable : Workspace → Prop
  | empty : Reachable empty
  | run {ws ws' : Workspace} {action : Action} (h : Reachable ws)
      (hrun : action.run ws = some ws') : Reachable ws'
  | clear {ws ws' : Workspace} (h : Reachable ws) (hok : clear ws = .ok () ws') : Reachable ws'

theorem clear_node? (hok : clear ws = .ok () ws') (n : NodeId) : ws'.graph.node? n = none := by
  cases hok
  rfl

theorem clear_sound (hok : clear ws = .ok () ws') : ws'.Sound := by
  cases hok
  exact sound_of_registry _ _

theorem Reachable.sound (h : ws.Reachable) : ws.Sound := by
  induction h with
  | empty => exact empty_sound
  | run _ hrun ih => exact Action.run_sound ih hrun
  | clear _ hok _ => exact clear_sound hok

theorem Reachable.runAll {actions : List Action} (h : ws.Reachable)
    (hrun : ws.runAll actions = some ws') : ws'.Reachable :=
  runAll_kept (fun _ _ _ _ hws hstep => hws.run hstep) h hrun

/-- The workspaces that edits lead to without an attached link that is still to be solved. -/
inductive Resolved : Workspace → Prop
  | empty : Resolved empty
  | clear {ws ws' : Workspace} (h : Reachable ws) (hok : clear ws = .ok () ws') : Resolved ws'
  | resolveAll {ws : Workspace} (h : Reachable ws) : Resolved ws.resolveAll.2
  | run {ws ws' : Workspace} {action : Action} (h : Resolved ws)
      (hattach : ∀ output input, action ≠ .attach output input)
      (hrun : action.run ws = some ws') : Resolved ws'

theorem Resolved.reachable (h : ws.Resolved) : ws.Reachable := by
  induction h with
  | empty => exact .empty
  | clear h hok => exact h.clear hok
  | @resolveAll ws h => exact @Reachable.run ws _ .resolveAll h rfl
  | run _ _ hrun ih => exact ih.run hrun

theorem Resolved.settled (h : ws.Resolved) : ws.Settled := by
  induction h with
  | empty => exact empty_settled
  | clear _ hok =>
    intro n node hn
    cases (clear_node? hok n).symm.trans hn
  | resolveAll h => exact resolveAll_settled h.sound
  | run h hattach hrun ih => exact (Action.run_kept h.reachable.sound hattach hrun).2 ih

end Workspace
end BlockGraph
