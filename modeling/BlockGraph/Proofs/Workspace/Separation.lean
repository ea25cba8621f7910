import BlockGraph.Proofs.Workspace.Growth

/-!
# Variables are kept apart

A link is solved in the component of its ends, and its solution is carried out there
and nowhere else.  This is right only if no socket outside of the component has a
variable of it, and if no variable of it stands in a definition, from which other
nodes will get their types.  `Sound` has the first part.  `Separated` is the second
one: the variables of sockets and the variables of definitions are two sets, and the
supply is beyond both.

An edit is a chain of steps.  A type that is given to it is stored as it is, so its
variables are those of a definition from then on, also if a socket has one of them.  All
other variables come from the supply.  The ones that go to definitions come before the
ones that go to sockets, so a step keeps the two sets apart if there is a number between
them.  What sockets and definitions have in common in the end has been given to an edit
while a socket had it.
-/

namespace BlockGraph

variable {v : TyVar}

/-! ## The variables of signatures -/

theorem Block.derive_vars {block : Block} {r : Registry} {s s' : Supply} {t : Ty}
    (h : block.derive r s = .ok (some t, s')) (hv : v ∈ t.leaves) :
    r.HasVar v ∨ (s.next ≤ v ∧ v < s'.next) := by
  have hfresh : ∀ w ∈ s.fresh.1.leaves, s.next ≤ w ∧ w < s.fresh.2.next := by
    intro w hw
    rw [List.mem_singleton.mp hw]
    exact ⟨Nat.le_refl _, Nat.lt_succ_self _⟩
  cases derives_iff.mpr h with
  | @function name t ht _ =>
    obtain ⟨_, _, hmem, _⟩ := List.lookup_eq_some_iff.mp ht
    exact .inl (.inl ⟨(name, t), by rw [hmem]; simp, hv⟩)
  | ctor hvariant =>
    rcases TyTerm.mem_leaves_curried.mp hv with ⟨ty, hty, hv⟩ | hv
    · rcases Registry.mem_fillFields hty with hset | hnew
      · exact .inl (.inr ⟨_, (Registry.variant?_mem hvariant).1, ty, hset, hv⟩)
      · exact .inr (hnew v hv)
    · cases hv
  | caseOf _ =>
    rcases TyTerm.mem_leaves_curried.mp hv with ⟨ty, hty, hv⟩ | hv
    · rcases List.mem_cons.mp hty with rfl | hty
      · cases hv
      · rw [(List.mem_replicate.mp hty).2] at hv
        exact .inr (hfresh v hv)
    · exact .inr (hfresh v hv)
  | list =>
    rcases TyTerm.mem_leaves_curried.mp hv with ⟨ty, hty, hv⟩ | hv
    · rw [(List.mem_replicate.mp hty).2] at hv
      exact .inr (hfresh v hv)
    · have hitem : v ∈ s.fresh.1.leaves ++ [] := hv
      rw [List.append_nil] at hitem
      exact .inr (hfresh v hitem)
  | localVar => exact .inr (hfresh v hv)

theorem Block.mem_leaves {block : Block} :
    v ∈ block.leaves ↔ ∃ ty value, block = .literal ty value ∧ v ∈ ty.leaves := by
  cases block <;> simp [leaves]

theorem Node.hasVar_renameType {node : Node} {old new : String}
    (h : (node.renameType old new).HasVar v) : node.HasVar v := by
  obtain ⟨block, signature, _, _, _⟩ := node
  rcases h with ⟨t, ht, hv⟩ | ⟨ty, value, hblock, hv⟩
  · obtain ⟨t, rfl, rfl⟩ := Option.map_eq_some_iff.mp ht
    rw [TyTerm.leaves_renameLiteral] at hv
    exact .inl ⟨t, rfl, hv⟩
  · cases block with
    | literal declared text =>
      cases hblock
      rw [TyTerm.leaves_renameLiteral] at hv
      exact .inr ⟨declared, value, rfl, hv⟩
    | _ => cases hblock

theorem Node.hasVar_renameCtor {node : Node} {old new : String}
    (h : (node.renameCtor old new).HasVar v) : node.HasVar v := by
  obtain ⟨block, signature, _, _, _⟩ := node
  refine h.imp_right ?_
  rintro ⟨ty, value, hblock, hv⟩
  cases block with
  | literal declared text =>
    cases hblock
    exact ⟨ty, value, rfl, hv⟩
  | _ => cases hblock

namespace Workspace

variable {ws ws' : Workspace} {n : NodeId} {node : Node} {name old new candidate : String}
  {nodes : List NodeId} {errors : List TypeError} {v : TyVar}

/-! ## Steps -/

def SocketVar (ws : Workspace) (v : TyVar) : Prop :=
  ∃ s socket, ws.graph.socket? s = some socket ∧ v ∈ socket.ty.leaves

/-- The variables of what the types of sockets are made from: of the registry, of signatures, and of
the types of literals. -/
def DefinitionVar (ws : Workspace) (v : TyVar) : Prop :=
  ws.registry.HasVar v ∨ ∃ n node, ws.graph.node? n = some node ∧ node.HasVar v

theorem DefinitionVar.of_nodes (h : ws'.DefinitionVar v) (hregistry : ws'.registry = ws.registry)
    (hnodes : ∀ n node, ws'.graph.node? n = some node → ws.graph.node? n = some node) :
    ws.DefinitionVar v := by
  rcases h with hr | ⟨n, node, hn, hv⟩
  · exact .inl (hregistry ▸ hr)
  · exact .inr ⟨n, node, hnodes n node hn, hv⟩

/-- The variables of sockets that stand in a definition too are among the `shared` ones, and the
supply is beyond all of them. -/
structure Separated (shared : TyVar → Prop) (ws : Workspace) : Prop where
  sockets : ∀ v, ws.SocketVar v → v < ws.supply.next
  definitions : ∀ v, ws.DefinitionVar v → v < ws.supply.next
  apart : ∀ v, ws.SocketVar v → ws.DefinitionVar v → shared v

namespace Separated

variable {shared : TyVar → Prop} {i o : SocketId}

theorem below (h : ws.Separated shared) : Below ws.graph ws.supply :=
  fun s socket hs v hv => h.sockets v ⟨s, socket, hs, hv⟩

/-- No socket has a variable that is still to come. -/
theorem fresh (h : ws.Separated shared) (hv : ws.supply.next ≤ v) (hs : ws.SocketVar v) :
    shared v :=
  absurd (h.sockets v hs) (Nat.not_lt.mpr hv)

/-- New variables of definitions lie below a mark, and new variables of sockets above it. -/
theorem step (h : ws.Separated shared) {mark : TyVar} (hlo : ws.supply.next ≤ mark)
    (hhi : mark ≤ ws'.supply.next)
    (hdefinitions : ∀ v, ws'.DefinitionVar v →
      ws.DefinitionVar v ∨ ((ws.SocketVar v → shared v) ∧ v < mark))
    (hsockets : ∀ v, ws'.SocketVar v → ws.SocketVar v ∨ (mark ≤ v ∧ v < ws'.supply.next)) :
    ws'.Separated shared := by
  refine ⟨fun v hs => ?_, fun v hd => ?_, fun v hs hd => ?_⟩
  · rcases hsockets v hs with hs | ⟨_, hlt⟩
    · exact Nat.lt_of_lt_of_le (h.sockets v hs) (Nat.le_trans hlo hhi)
    · exact hlt
  · rcases hdefinitions v hd with hd | ⟨_, hlt⟩
    · exact Nat.lt_of_lt_of_le (h.definitions v hd) (Nat.le_trans hlo hhi)
    · exact Nat.lt_of_lt_of_le hlt hhi
  · -- A new variable of a socket is above the mark, where no definition has one.
    rcases hsockets v hs with hs | ⟨hge, _⟩ <;> rcases hdefinitions v hd with hd | ⟨hgiven, hlt⟩
    · exact h.apart v hs hd
    · exact hgiven hs
    · exact absurd (h.definitions v hd) (Nat.not_lt.mpr (Nat.le_trans hlo hge))
    · exact absurd hlt (Nat.not_lt.mpr hge)

theorem of_definitions (h : ws.Separated shared) (hsupply : ws.supply.next ≤ ws'.supply.next)
    (hsockets : ∀ v, ws'.SocketVar v → ws.SocketVar v)
    (hdefinitions : ∀ v, ws'.DefinitionVar v →
      ws.DefinitionVar v ∨ ((ws.SocketVar v → shared v) ∧ v < ws'.supply.next)) :
    ws'.Separated shared :=
  h.step hsupply (Nat.le_refl _) hdefinitions fun v hv => .inl (hsockets v hv)

theorem of_sockets (h : ws.Separated shared) (hsupply : ws.supply.next ≤ ws'.supply.next)
    (hdefinitions : ∀ v, ws'.DefinitionVar v → ws.DefinitionVar v)
    (hsockets : ∀ v, ws'.SocketVar v →
      ws.SocketVar v ∨ (ws.supply.next ≤ v ∧ v < ws'.supply.next)) : ws'.Separated shared :=
  h.step (Nat.le_refl _) hsupply (fun v hv => .inl (hdefinitions v hv)) hsockets

theorem of_fewer (h : ws.Separated shared) {graph : Graph}
    (hnodes : ∀ n node, graph.node? n = some node → ws.graph.node? n = some node)
    (hsockets : ∀ s socket, graph.socket? s = some socket → ws.graph.socket? s = some socket) :
    Separated shared { ws with graph } := by
  refine h.of_definitions (Nat.le_refl _) ?_ fun v hd => .inl (hd.of_nodes rfl hnodes)
  rintro v ⟨s, socket, hs, hv⟩
  exact ⟨s, socket, hsockets s socket hs, hv⟩

theorem redrawn (h : ws.Separated shared) (hr : Redrawn ws ws') : ws'.Separated shared := by
  refine h.of_sockets hr.supply
    (fun v hv => hv.of_nodes hr.sameShape.registry fun n node hn => ?_) ?_
  · exact (hr.sameShape.node? n).symm.trans hn
  · rintro v ⟨s, socket, hs, hv⟩
    exact (hr.socket s socket hs).imp (fun hold => ⟨s, socket, hold, hv⟩) fun hnew => hnew v hv

theorem recompute (h : ws.Separated shared) (hgraph : ws.graph.WellFormed) (seeds : List SocketId) :
    (ws.recompute seeds).2.Separated shared :=
  h.redrawn (recompute_redrawn hgraph seeds)

theorem recomputeEach (h : ws.Separated shared) (hgraph : ws.graph.WellFormed)
    (nodes : List NodeId) :
    (ws.recomputeEach nodes).2.Separated shared := by
  induction nodes generalizing ws with
  | nil => exact h
  | cons n rest ih =>
    have hr := recompute_redrawn hgraph (ws.graph.socketAt? n .output).toList
    exact ih (h.redrawn hr) (hr.sameShape.wellFormed.mpr hgraph)

/-- The signature of a node has variables of the registry and new ones, and then its new inputs get
theirs. -/
theorem install (h : ws.Separated shared) (hgraph : ws.graph.WellFormed) (n : NodeId) :
    (ws.install n).2.Separated shared := by
  cases hn : ws.graph.node? n with
  | none =>
    rw [Workspace.install, hn]
    exact h
  | some node =>
    obtain ⟨f, supply, count, hinstall, hbare, hle, _, hvars⟩ := install_eq hn
    have hnode := Graph.node?_modifyNode hn (f := f)
    have hinputs : (f node).inputs = node.inputs :=
      show (f node).bare.inputs = node.bare.inputs by rw [hbare]
    obtain ⟨displaced, graph, supply', hresize, honly, hle', ⟨inputs, hnode', _⟩, _, hsockets⟩ :=
      @resizeInputs_spec { ws with graph := ws.graph.modifyNode n f, supply } n (f node)
        (Graph.modifyNode_onlyAt hgraph n hbare).wellFormed (by rw [hnode, if_pos rfl]) count
    rw [hinstall, ← hinputs, hresize]
    -- The mark is the supply after the signature has been found and before inputs are added.
    refine h.step hle hle' (fun v hd => ?_) ?_
    · rcases hd with hr | ⟨m, found, hm, hv⟩
      · exact .inl (.inl hr)
      have hm : graph.node? m = some found := hm
      by_cases hmn : m = n
      · rw [hmn, hnode'] at hm
        cases hm
        rcases hvars v hv with hold | ⟨t, hderive, hv⟩
        · exact .inl (.inr ⟨n, node, hn, hold⟩)
        · exact (Block.derive_vars hderive hv).imp .inl (And.imp_left h.fresh)
      · rw [honly.node m hmn, hnode, if_neg hmn] at hm
        exact .inl (.inr ⟨m, found, hm, hv⟩)
    · rintro v ⟨s, socket, hs, hv⟩
      exact (hsockets s socket hs).imp (fun hold => ⟨s, socket, hold, hv⟩) fun hnew => hnew v hv

theorem installAll (h : ws.Separated shared) (hgraph : ws.graph.WellFormed) (nodes : List NodeId) :
    (ws.installAll nodes).2.Separated shared := by
  induction nodes generalizing ws with
  | nil => exact h
  | cons n rest ih => exact ih (h.install hgraph n) (install_wellFormed hgraph h.below n)

theorem rebuild (h : ws.Separated shared) (hgraph : ws.graph.WellFormed) (nodes : List NodeId) :
    (ws.rebuild nodes).2.Separated shared := by
  obtain ⟨seeds, graph, supply, hall, ⟨_, honly, _⟩, _⟩ := installAll_spec hgraph h.below nodes
  have hinstalled := h.installAll hgraph nodes
  rw [Workspace.rebuild, hall] at *
  exact hinstalled.recompute honly.wellFormed seeds

theorem modifyBlock_wellFormed (hgraph : ws.graph.WellFormed) (n : NodeId) (block : Block) :
    (ws.graph.modifyNode n fun node => { node with block }).WellFormed := by
  have honly : Graph.OnlyAt ws.graph (ws.graph.modifyNode n fun node => { node with block })
      (· = n) [] := Graph.modifyNode_onlyAt hgraph n fun _ => rfl
  exact honly.wellFormed

/-- Another block that is no literal brings no variables. -/
theorem modifyBlock (h : ws.Separated shared) (hn : ws.graph.node? n = some node) (block : Block)
    (hblock : ∀ ty value, block ≠ .literal ty value) :
    Separated shared
      { ws with graph := ws.graph.modifyNode n fun node => { node with block } } := by
  refine h.of_definitions (Nat.le_refl _) (fun _ hv => hv) fun v hd => .inl ?_
  rcases hd with hr | ⟨m, found, hm, hv⟩
  · exact .inl hr
  have hm := (Graph.node?_modifyNode hn _ m).symm.trans hm
  split at hm
  · cases hm
    rcases hv with hsignature | ⟨ty, value, hliteral, _⟩
    · exact .inr ⟨n, node, hn, .inl hsignature⟩
    · exact absurd hliteral (hblock ty value)
  · exact .inr ⟨m, found, hm, hv⟩

theorem withRegistry (h : ws.Separated shared) {registry : Registry} {supply : Supply}
    (hsupply : ws.supply.next ≤ supply.next)
    (hvars : ∀ v, registry.HasVar v →
      ws.registry.HasVar v ∨ ((ws.SocketVar v → shared v) ∧ v < supply.next)) :
    Separated shared { ws with registry, supply } :=
  h.of_definitions hsupply (fun _ hv => hv) fun v hd => hd.elim
    (fun hr => (hvars v hr).imp_left .inl) fun hnode => .inl (.inr hnode)

/-! ## Edits -/

theorem addNode (h : ws.Separated shared) (hgraph : ws.graph.WellFormed) {block : Block}
    (hgiven : ∀ v ∈ block.leaves, ws.SocketVar v → shared v)
    (hok : addNode block ws = .ok n ws') : ws'.Separated shared := by
  obtain ⟨_, s, graph, hinsert, hwf, _, _, _, hnode, hsocket⟩ :=
    Graph.insertNode_spec hgraph block (ws.supply.past block.leaves).fresh.1
  have hinserted :
      Separated shared { ws with graph, supply := (ws.supply.past block.leaves).fresh.2 } := by
    -- The output gets a variable that is beyond those of a literal.
    refine h.step (ws.supply.le_past block.leaves) (Nat.le_succ _) (fun v hd => ?_) ?_
    · rcases hd with hr | ⟨m, found, hm, hv⟩
      · exact .inl (.inl hr)
      have hm := (hnode m).symm.trans hm
      split at hm
      · cases hm
        rcases hv with ⟨t, ht, _⟩ | hv
        · cases ht
        · have hmem := Block.mem_leaves.mpr hv
          exact .inr ⟨hgiven v hmem, ws.supply.lt_past hmem⟩
      · exact .inl (.inr ⟨m, found, hm, hv⟩)
    · rintro v ⟨t, socket, ht, hv⟩
      have ht := (hsocket t).symm.trans ht
      split at ht
      · cases ht
        rw [List.mem_singleton.mp hv]
        exact .inr ⟨Nat.le_refl _, Nat.lt_succ_self _⟩
      · exact .inl ⟨t, socket, ht, hv⟩
  simp only [Workspace.addNode, hinsert] at hok
  cases hok
  exact (hinserted.install hwf n).recompute (install_wellFormed hwf hinserted.below n) _

theorem removeNode (h : ws.Separated shared) (hgraph : ws.graph.WellFormed)
    (hok : removeNode n ws = .ok errors ws') : ws'.Separated shared := by
  cases hn : ws.graph.node? n with
  | none =>
    rw [Workspace.removeNode, Graph.removeNode, hn] at hok
    cases hok
  | some node =>
    obtain ⟨peers, graph, hremove, hwf, hnode, hsocket, _⟩ := Graph.removeNode_spec hgraph hn
    rw [Workspace.removeNode, hremove] at hok
    cases hok
    have hremoved : Separated shared { ws with graph } := by
      refine h.of_fewer (fun m node hm => ?_) fun t socket ht => ?_
      · rw [hnode] at hm
        split at hm
        · cases hm
        · exact hm
      · rw [hsocket] at ht
        split at ht
        · cases ht
        · exact ht
    exact hremoved.recompute hwf peers

theorem disconnect (h : ws.Separated shared) (hgraph : ws.graph.WellFormed)
    (hok : disconnect o i ws = .ok errors ws') : ws'.Separated shared := by
  rw [Workspace.disconnect] at hok
  split at hok
  · cases hok
  next graph hunwire =>
  obtain ⟨hwf, hnodes, hsockets, _⟩ := Graph.unwire?_spec hgraph hunwire
  cases hok
  have hunwired : Separated shared { ws with graph } := by
    refine h.of_fewer (fun m node hm => ?_) fun t socket ht => ?_
    · rwa [Graph.node?, hnodes] at hm
    · rwa [Graph.socket?, hsockets] at ht
  exact hunwired.recompute hwf _

theorem setArity (h : ws.Separated shared) (hgraph : ws.graph.WellFormed) {items : Nat}
    (hok : setArity n items ws = .ok errors ws') : ws'.Separated shared := by
  rw [Workspace.setArity] at hok
  split at hok
  · cases hok
  next node hn =>
  split at hok
  · have hwf := modifyBlock_wellFormed hgraph n (.list items)
    have hmodified := h.modifyBlock hn (.list items) fun _ _ => by simp
    cases hok
    exact (hmodified.install hwf n).recompute (install_wellFormed hwf hmodified.below n) _
  · cases hok

theorem renameBinder (h : ws.Separated shared) (hgraph : ws.graph.WellFormed) {branch field : Nat}
    {given : String} (hok : renameBinder n branch field name ws = .ok given ws') :
    ws'.Separated shared := by
  obtain ⟨node, type, binders, names, hn, _, _, rfl⟩ := renameBinder_eq hok
  exact (h.modifyBlock hn _ fun _ _ => by simp).recompute (modifyBlock_wellFormed hgraph n _) _

/-- A solution is made of variables of the component and of new ones for its pattern variables. -/
theorem connect (h : ws.Separated shared) (hgraph : ws.graph.WellFormed)
    (hok : connect o i ws = .ok () ws') : ws'.Separated shared := by
  obtain ⟨p, c, z, hl, _, hz, hm⟩ := connect_ok hgraph hok
  have hstored :
      ∀ s m, ws.graph.owner? s = some m → ∀ v ∈ (ws.stored s).leaves, ws.SocketVar v := by
    intro s m hs v hv
    obtain ⟨socket, hsocket, _⟩ := Option.map_eq_some_iff.mp hs
    rw [stored_eq hsocket] at hv
    exact ⟨s, socket, hsocket, hv⟩
  refine h.of_sockets (hm.supply ▸ (linkScope_listed ws o i).supply)
    (fun v hd => hd.of_nodes hm.sameShape.registry fun m node hn => ?_) ?_
  · exact (hm.sameShape.node? m).symm.trans hn
  · rintro v ⟨s, socket, hs, hv⟩
    have hown := hm.sameShape.owner?_of_socket? hs
    rw [← stored_eq hs] at hv
    by_cases hJ : ws.SocketOf (ws.Joined o i p) s
    · rw [hm.supply]
      refine (hm.linkVar_of_leaves hgraph hl hz hJ hv).imp_left ?_
      rintro ⟨u, ⟨k, hu, _⟩, hvu⟩
      exact hstored u k hu v hvu
    · rw [hm.stored_other hJ] at hv
      exact .inl (hstored s _ hown v hv)

theorem attach (h : ws.Separated shared) (hok : attach o i ws = .ok () ws') :
    ws'.Separated shared := by
  obtain ⟨_, rfl⟩ := attach_ok hok
  exact ⟨h.sockets, h.definitions, h.apart⟩

theorem renameType (h : ws.Separated shared) (hgraph : ws.graph.WellFormed)
    (hok : renameType old candidate ws = .ok new ws') : ws'.Separated shared := by
  rcases renameType_ok hgraph hok with ⟨_, rfl⟩ | ⟨registry, hne, hrename, hr, rfl⟩
  · exact h
  obtain ⟨_, _, _, rfl⟩ := (Registry.renameType_ok hrename).resolve_left fun hsame => hne hsame.1
  refine rebuild ?_ (hr.wellFormed hgraph) _
  refine h.of_definitions (Nat.le_refl _) ?_ fun v hd => .inl ?_
  · rintro v ⟨s, socket', hsocket, hv⟩
    obtain ⟨socket, hold, rfl⟩ := hr.exists_socket hsocket
    rw [TyTerm.leaves_renameLiteral] at hv
    exact ⟨s, socket, hold, hv⟩
  · rcases hd with hvar | ⟨m, node', hm, hv⟩
    · exact .inl hvar.of_renamed
    · obtain ⟨node, hnode, rfl⟩ := hr.exists_node hm
      exact .inr ⟨m, node, hnode, Node.hasVar_renameType hv⟩

theorem renameCtor (h : ws.Separated shared) (hok : renameCtor old candidate ws = .ok new ws') :
    ws'.Separated shared := by
  obtain ⟨registry, hrename, rfl⟩ := renameCtor_eq hok
  refine h.of_definitions (Nat.le_refl _) (fun _ hv => hv) fun v hd => .inl ?_
  rcases hd with hvar | ⟨m, node', hm, hv⟩
  · exact .inl (hvar.of_renameCtor hrename)
  · obtain ⟨node, hnode, rfl⟩ := Graph.exists_node_renameCtor hm
    exact .inr ⟨m, node, hnode, Node.hasVar_renameCtor hv⟩

theorem run (h : ws.Separated shared) (hs : ws.Sound) {action : Action}
    (hgiven : ∀ v ∈ action.given, ws.SocketVar v → shared v)
    (hrun : action.run ws = some ws') : ws'.Separated shared := by
  by_cases hredefines : action.redefines = true
  · obtain ⟨registry, supply, nodes, hd, rfl⟩ := action.run_redefines hredefines hrun
    refine rebuild (h.withRegistry hd.supply_le fun v hv => ?_) hs.graph nodes
    exact (hd.hasVar hv).imp_right fun hnew => ⟨hgiven v hnew.1, hnew.2⟩
  have hafter {α : Type} {edit : Edit α}
      (hedit : ∀ a ws', edit ws = .ok a ws' → ws'.Separated shared)
      (hrun : after? edit ws = some ws') : ws'.Separated shared := by
    obtain ⟨a, hok⟩ := after?_eq_some hrun
    exact hedit a ws' hok
  cases action with
  | addNode block => exact hafter (fun _ _ => h.addNode hs.graph hgiven) hrun
  | removeNode n => exact hafter (fun _ _ => h.removeNode hs.graph) hrun
  | connect output input => exact hafter (fun _ _ => h.connect hs.graph) hrun
  | disconnect output input => exact hafter (fun _ _ => h.disconnect hs.graph) hrun
  | setArity n items => exact hafter (fun _ _ => h.setArity hs.graph) hrun
  | renameBinder n branch field name => exact hafter (fun _ _ => h.renameBinder hs.graph) hrun
  | renameType old candidate => exact hafter (fun _ _ => h.renameType hs.graph) hrun
  | renameCtor old candidate => exact hafter (fun _ _ => h.renameCtor) hrun
  | attach output input => exact hafter (fun _ _ => h.attach) hrun
  | resolveAll =>
    cases hrun
    exact h.recomputeEach hs.graph _
  | _ => exact absurd rfl hredefines

theorem refused (h : ws.Separated shared) (hgraph : ws.graph.WellFormed) {action : Action}
    {e : EditError} (hrefused : action.edit ws = .error e ws') : ws'.Separated shared := by
  rcases refused_cases hgraph hrefused with rfl | ⟨name, rfl⟩
  · exact h
  · exact h.withRegistry (Nat.le_refl _) fun v hv => .inl hv.of_withVariants

end Separated

/-! ## Workspaces that edits lead to -/

/-- The workspaces that edits lead to, also if some of them are refused, if the variables that an
edit is given while a socket has them are among the `shared` ones. -/
inductive VisitedSharing (shared : TyVar → Prop) : Workspace → Prop
  | empty : VisitedSharing shared empty
  | done {ws ws' : Workspace} {action : Action} (h : VisitedSharing shared ws)
      (hgiven : ∀ v ∈ action.given, ws.SocketVar v → shared v)
      (hok : action.edit ws = .ok () ws') : VisitedSharing shared ws'
  | refused {ws ws' : Workspace} {action : Action} {e : EditError} (h : VisitedSharing shared ws)
      (hrefused : action.edit ws = .error e ws') : VisitedSharing shared ws'
  | clear {ws ws' : Workspace} (h : VisitedSharing shared ws) (hok : clear ws = .ok () ws') :
      VisitedSharing shared ws'

namespace VisitedSharing

variable {shared : TyVar → Prop}

theorem visited (h : ws.VisitedSharing shared) : ws.Visited := by
  induction h with
  | empty => exact .empty
  | done _ _ hok ih => exact ih.done hok
  | refused _ hrefused ih => exact ih.refused hrefused
  | clear _ hok ih => exact ih.clear hok

theorem runAll {actions : List Action} (h : ws.VisitedSharing shared)
    (hgiven : ∀ action ∈ actions, action.given = []) (hrun : ws.runAll actions = some ws') :
    ws'.VisitedSharing shared := by
  refine runAll_kept (fun action hmem _ _ hws hstep => hws.done (fun v hv => ?_)
    ((Action.run_eq_some_iff _ _).mp hstep)) h hrun
  rw [hgiven action hmem] at hv
  cases hv

/-- Without nodes there are no sockets, and the functions of the prelude have variables of their
own. -/
theorem separated_of_empty {supply : Supply} (hs : Registry.preludeSupply.next ≤ supply.next) :
    Separated shared { graph := {}, registry := .withPrelude, supply } := by
  have hnone : ∀ v, ¬ SocketVar { graph := {}, registry := .withPrelude, supply } v := by
    rintro v ⟨s, socket, hsocket, _⟩
    cases hsocket
  refine ⟨fun v hv => absurd hv (hnone v), fun v hd => ?_, fun v hv => absurd hv (hnone v)⟩
  rcases hd with hr | ⟨n, node, hn, _⟩
  · exact Registry.below_iff.mp (withPrelude_below.mono hs) v hr
  · cases hn

theorem separated (h : ws.VisitedSharing shared) : ws.Separated shared := by
  induction h with
  | empty => exact separated_of_empty (Nat.le_refl _)
  | done h hgiven hok ih =>
    exact ih.run h.visited.sound hgiven ((Action.run_eq_some_iff _ _).mpr hok)
  | refused h hrefused ih => exact ih.refused h.visited.sound.graph hrefused
  | clear h hok _ =>
    cases hok
    exact separated_of_empty h.visited.stocked.started

end VisitedSharing

end Workspace
end BlockGraph
