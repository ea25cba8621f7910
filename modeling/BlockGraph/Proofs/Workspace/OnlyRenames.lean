import BlockGraph.Proofs.Registry.FreeNames
import BlockGraph.Proofs.Workspace.Revision

/-!
# Renaming a type only renames

Where no socket is invalid, no node waits for a signature.  Then giving a type another
name rebuilds nothing: registry and graph are rewritten in place, and links, numbers,
inputs and states are left alone.  Nothing is lost on the way, unless the new name
stood somewhere before.  If it did not, renaming the type back brings back everything.
-/

namespace BlockGraph

theorem Slots.map_map_cancel {α : Type} {s : Slots α} {f g : α → α}
    (h : ∀ e ∈ s.entries, g (f e.2) = e.2) : (s.map f).map g = s := by
  have hentries : (s.entries.map fun e => (e.1, f e.2)).map (fun e => (e.1, g e.2)) =
      s.entries := by
    rw [List.map_map]
    refine (List.map_congr_left fun e he => ?_).trans (List.map_id s.entries)
    exact Prod.ext rfl (h e he)
  exact congrArg (Slots.mk · s.numbers) hentries

/-! ## Where a type is mentioned -/

/-- Whether a block is made for a type or holds one that mentions it. -/
def Block.mentions (name : String) : Block → Bool
  | literal ty _ => ty.mentions name
  | caseOf type _ => type = name
  | _ => false

def Node.mentions (node : Node) (name : String) : Bool :=
  node.block.mentions name || node.signature.any fun ty => ty.mentions name

/-- Whether a node or a socket mentions a type. -/
def Graph.mentions (g : Graph) (name : String) : Bool :=
  g.nodes.entries.any (fun e => e.2.mentions name) ||
    g.sockets.entries.any fun e => e.2.ty.mentions name

namespace Node

variable {node : Node} {old new : String}

theorem mentions_renameType (hne : new ≠ old) : (node.renameType old new).mentions old = false := by
  rw [mentions, Bool.or_eq_false_iff]
  constructor
  · cases hblock : node.block with
    | literal ty value =>
      simp only [renameType, hblock, Block.renameType, Block.mentions]
      exact TyTerm.mentions_renameLiteral hne
    | caseOf type binders =>
      simp only [renameType, hblock, Block.renameType, Block.mentions, decide_eq_false_iff_not]
      split
      · exact hne
      · next hold => exact hold
    | _ => simp only [renameType, hblock, Block.renameType, Block.mentions]
  · cases hsig : node.signature with
    | none => simp [renameType, hsig]
    | some ty => simp [renameType, hsig, TyTerm.mentions_renameLiteral hne]

theorem renameType_renameType (h : node.mentions new = false) :
    (node.renameType old new).renameType new old = node := by
  rw [mentions, Bool.or_eq_false_iff] at h
  obtain ⟨hblock, hsignature⟩ := h
  obtain ⟨block, signature, untyped, inputs, output⟩ := node
  have hblock : (block.renameType old new).renameType new old = block := by
    cases block with
    | literal ty value =>
      exact congrArg (Block.literal · value) (TyTerm.renameLiteral_renameLiteral hblock)
    | caseOf type binders =>
      have hne : type ≠ new := by simpa [Block.mentions] using hblock
      by_cases hold : type = old
      · simp [Block.renameType, hold]
      · simp [Block.renameType, hold, hne]
    | _ => rfl
  have hsignature : (signature.map (TyTerm.renameLiteral old new)).map
      (TyTerm.renameLiteral new old) = signature := by
    cases signature with
    | none => rfl
    | some ty =>
      exact congrArg some (TyTerm.renameLiteral_renameLiteral (by simpa using hsignature))
  simp only [renameType, hblock, hsignature]

theorem renameType_self (node : Node) (name : String) : node.renameType name name = node := by
  have hid : TyTerm.renameLiteral (ν := TyVar) name name = id :=
    funext (TyTerm.renameLiteral_self name)
  obtain ⟨block, signature, untyped, inputs, output⟩ := node
  cases block <;> simp [renameType, Block.renameType, hid, Workspace.ite_name_self]

end Node

namespace Graph

variable {g : Graph} {old new : String}

theorem mentions_renamed (hne : new ≠ old) : (g.renamed old new).mentions old = false := by
  rw [mentions, Bool.or_eq_false_iff, List.any_eq_false, List.any_eq_false]
  constructor
  · intro e' he'
    obtain ⟨e, _, rfl⟩ := List.mem_map.mp he'
    have hnode : (e.2.renameType old new).mentions old = false := Node.mentions_renameType hne
    exact Bool.not_eq_true _ ▸ hnode
  · intro e' he'
    obtain ⟨e, _, rfl⟩ := List.mem_map.mp he'
    exact Bool.not_eq_true _ ▸ TyTerm.mentions_renameLiteral hne

theorem renamed_renamed (h : g.mentions new = false) :
    (g.renamed old new).renamed new old = g := by
  rw [mentions, Bool.or_eq_false_iff, List.any_eq_false, List.any_eq_false] at h
  have hnodes : (g.nodes.map (Node.renameType old new)).map (Node.renameType new old) = g.nodes :=
    Slots.map_map_cancel fun e he => Node.renameType_renameType (by simpa using h.1 e he)
  have hsockets : (g.sockets.map (Socket.renameType old new)).map (Socket.renameType new old) =
      g.sockets := by
    refine Slots.map_map_cancel fun e he => ?_
    simp only [Socket.renameType, TyTerm.renameLiteral_renameLiteral (by simpa using h.2 e he)]
  exact congrArg₂ (Graph.mk · · g.links) hnodes hsockets

theorem renamed_self (g : Graph) (name : String) : g.renamed name name = g := by
  have hnode : Node.renameType name name = id := funext fun node => node.renameType_self name
  have hty : TyTerm.renameLiteral (ν := TyVar) name name = id :=
    funext (TyTerm.renameLiteral_self name)
  have hnodes : g.nodes.map (Node.renameType name name) = g.nodes := by
    rw [hnode, Slots.map]
    exact congrArg (Slots.mk · g.nodes.numbers) (List.map_id g.nodes.entries)
  have hsocket : Socket.renameType name name = id := funext fun socket => by
    rw [Socket.renameType, hty]
    rfl
  have hsockets : g.sockets.map (Socket.renameType name name) = g.sockets := by
    rw [hsocket, Slots.map]
    exact congrArg (Slots.mk · g.sockets.numbers) (List.map_id g.sockets.entries)
  exact congrArg₂ (Graph.mk · · g.links) hnodes hsockets

end Graph

namespace Workspace

variable {ws ws' : Workspace} {n : NodeId} {node : Node} {old new candidate : String}

/-- Whether anything but the definition of a type mentions it. -/
def mentions (ws : Workspace) (name : String) : Bool :=
  ws.registry.mentions name || ws.graph.mentions name

/-! ## Names in every workspace -/

theorem Action.Redefines.wellNamed {action : Action} {registry : Registry} {supply : Supply}
    {nodes : List NodeId} (hd : action.Redefines ws registry supply nodes)
    (hr : ws.registry.WellNamed) : registry.WellNamed := by
  cases hd with
  | defineType hdefine => exact hr.defineType hdefine
  | defineFunction hdefine => exact hr.defineFunction hdefine
  | deleteType hdelete => exact hr.deleteType hdelete
  | @setVariantCount name count _ _ hset =>
    have hafter := hr.after_setVariantCount name count
    rwa [Registry.after, hset] at hafter
  | setFieldCount hset => exact hr.setFieldCount hset
  | setFieldType hset => exact hr.setFieldType hset

theorem Action.run_wellNamed {action : Action} (h : ws.Sound) (hrun : action.run ws = some ws')
    (hr : ws.registry.WellNamed) : ws'.registry.WellNamed := by
  cases action.run_effect h hrun with
  | nodes hrevised => exact hrevised.registry ▸ hr
  | redefined hd hrevised => exact hrevised.registry ▸ hd.wellNamed hr
  | bindersRenamed _ _ _ hrevised => exact hrevised.registry ▸ hr
  | typeRenamed hrename _ _ hrevised _ => exact hrevised.registry ▸ hr.renameType hrename
  | ctorRenamed hrename => exact hr.renameCtor hrename

theorem Reachable.wellNamed (h : ws.Reachable) : ws.registry.WellNamed := by
  induction h with
  | empty => exact Registry.wellNamed_withPrelude
  | run h hrun ih => exact Action.run_wellNamed h.sound hrun ih
  | clear _ hok =>
    cases hok
    exact Registry.wellNamed_withPrelude

/-! ## Nothing is rebuilt -/

theorem recompute_nil (h : ws.graph.WellFormed) : (ws.recompute []).2 = ws := by
  have hnodes : (ws.graph.component []).nodes = [] := by
    refine List.eq_nil_iff_forall_not_mem.mpr fun n hn => ?_
    obtain ⟨s, hs, _⟩ := (Graph.mem_component_nodes h).mp hn
    exact List.not_mem_nil hs
  have hsockets : (ws.graph.component []).sockets = [] := by
    refine List.eq_nil_iff_forall_not_mem.mpr fun s hs => ?_
    obtain ⟨n, _, hn⟩ := (Graph.mem_component_sockets h).mp hs
    rw [hnodes] at hn
    exact List.not_mem_nil hn
  simp only [recompute, hnodes, hsockets]
  split <;> rfl

theorem retryUntyped_of_typed (h : ws.graph.WellFormed)
    (htyped : ∀ n node, ws.graph.node? n = some node → node.untyped = none) :
    ws.retryUntyped.2 = ws := by
  have hnone : ws.nodesWhere (fun node => node.untyped.isSome) = [] := by
    refine List.eq_nil_iff_forall_not_mem.mpr fun n hn => ?_
    obtain ⟨node, hnode, huntyped⟩ := (mem_nodesWhere h).mp hn
    rw [htyped n node hnode] at huntyped
    cases huntyped
  rw [retryUntyped, hnone]
  exact recompute_nil h

theorem Resolved.typed (h : ws.Resolved) (hvalid : ws.invalidSockets = [])
    (n : NodeId) (node : Node) (hn : ws.graph.node? n = some node) : node.untyped = none := by
  have hgraph := h.reachable.sound.graph
  have hcoherent := (valid_of_invalidSockets hgraph hvalid node.output).coherent hgraph h.settled
    (Graph.owner?_output hgraph hn)
  exact hcoherent.typed n node (.refl _ n) hn

def renamed (old new : String) (ws : Workspace) : Workspace :=
  { ws with registry := ws.registry.renamed old new, graph := ws.graph.renamed old new }

theorem renamed_self (ws : Workspace) (name : String) : ws.renamed name name = ws := by
  rw [renamed, Registry.renamed_self, Graph.renamed_self]

theorem renamed_typed (htyped : ∀ n node, ws.graph.node? n = some node → node.untyped = none)
    (n : NodeId) (node : Node) (hn : (ws.renamed old new).graph.node? n = some node) :
    node.untyped = none := by
  obtain ⟨node₀, hn₀, rfl⟩ := Graph.exists_node_renamed hn
  exact htyped n node₀ hn₀

theorem renamed_wellFormed (old new : String) (h : ws.graph.WellFormed) :
    (ws.renamed old new).graph.WellFormed :=
  (Graph.wellFormed_congr (ws.graph.outline_renamed old new)).mpr h

theorem renameType_registry (hok : renameType old candidate ws = .ok new ws') :
    ∃ registry, Registry.renameType old candidate ws.registry = .ok new registry := by
  unfold renameType at hok
  split at hok
  · cases hok
  next given ws₁ hrun =>
  obtain ⟨registry, hrename, rfl⟩ := onRegistry_ok hrun
  split at hok
  · cases hok
    exact ⟨registry, hrename⟩
  · split at hok <;> cases hok
    exact ⟨registry, hrename⟩

theorem renameType_eq_renamed (h : ws.Sound)
    (htyped : ∀ n node, ws.graph.node? n = some node → node.untyped = none)
    (hok : renameType old candidate ws = .ok new ws') : ws' = ws.renamed old new := by
  rcases renameType_ok h.graph hok with ⟨rfl, rfl⟩ | ⟨registry, hne, hrename, hr, rfl⟩
  · exact (renamed_self _ _).symm
  · obtain ⟨_, _, _, rfl⟩ := (Registry.renameType_ok hrename).resolve_left fun he => hne he.1
    exact retryUntyped_of_typed (hr.wellFormed h.graph) (renamed_typed htyped)

theorem renameType_of_legal (h : ws.graph.WellFormed)
    (htyped : ∀ n node, ws.graph.node? n = some node → node.untyped = none)
    (hold : old ∈ ws.registry.types.map UserType.name) (hlegal : Naming.Legal new)
    (hne : new ≠ old) (hfree : ws.registry.isKnownType new = false) :
    renameType old new ws = .ok new (ws.renamed old new) := by
  have hretry := retryUntyped_of_typed (renamed_wellFormed old new h) (renamed_typed htyped)
  unfold renameType onRegistry
  rw [Registry.renameType_of_legal hold hlegal hne hfree]
  simp only [if_neg hne, Graph.renameType_eq h]
  exact congrArg (EStateM.Result.ok new) hretry

/-- A type that was renamed gets its name back, and so does everything that mentions it. -/
theorem renameType_back (h : ws.Resolved) (hvalid : ws.invalidSockets = [])
    (hok : renameType old candidate ws = .ok new ws') (hfresh : ws.mentions new = false) :
    renameType new old ws' = .ok old ws := by
  have hsound := h.reachable.sound
  have htyped := h.typed hvalid
  have hnamed := h.reachable.wellNamed
  obtain ⟨registry, hrename⟩ := renameType_registry hok
  have hold := Registry.renameType_known hrename
  have hlegal := hnamed.types_legal old hold
  obtain rfl := renameType_eq_renamed hsound htyped hok
  by_cases hne : new = old
  · subst hne
    rw [renamed_self, renameType, onRegistry, Registry.renameType_same hold hlegal]
    exact if_pos rfl
  obtain ⟨_, _, hpropose, _⟩ := (Registry.renameType_ok hrename).resolve_left fun he => hne he.1
  have hfree := (Registry.not_known (Registry.proposeTypeName_free hpropose)).2
  obtain ⟨hregistry, hgraph⟩ := Bool.or_eq_false_iff.mp hfresh
  have hnew : new ∈ (ws.registry.renamed old new).types.map UserType.name := by
    obtain ⟨t, ht, htold⟩ := List.mem_map.mp hold
    refine List.mem_map.mpr ⟨_, List.mem_map_of_mem ht, ?_⟩
    simp only [Registry.renamedType, if_pos htold]
  rw [renameType_of_legal (renamed_wellFormed old new hsound.graph) (renamed_typed htyped) hnew
    hlegal (Ne.symm hne) (Registry.isKnownType_old hnamed hold hne)]
  have hback : (ws.renamed old new).renamed new old = ws := by
    simp only [renamed, Registry.renamed_renamed hfree hregistry,
      Graph.renamed_renamed hgraph]
  rw [hback]

/-- In a workspace without an attached link that is still to be solved and without invalid sockets,
renaming a type gives the new name to everything that mentions it and changes nothing else: not the
links, not the nodes that there are, not their inputs and binders, and not the states of sockets.
Nothing mentions the type by its old name any more.  If nothing mentioned the new name before,
renaming the type back restores the workspace. -/
theorem renameType_only_renames (h : ws.Resolved) (hvalid : ws.invalidSockets = [])
    (hok : renameType old candidate ws = .ok new ws') :
    ws'.registry = ws.registry.renamed old new ∧ ws'.graph.links = ws.graph.links ∧
      ws'.graph.nodeIds = ws.graph.nodeIds ∧
      (∀ n, ws'.graph.node? n = (ws.graph.node? n).map (Node.renameType old new)) ∧
      (∀ s, ws'.graph.socket? s = (ws.graph.socket? s).map fun socket =>
        { socket with ty := socket.ty.renameLiteral old new }) ∧
      ws'.invalidSockets = [] ∧ (new ≠ old → ws'.mentions old = false) ∧
      (ws.mentions new = false → renameType new old ws' = .ok old ws) := by
  have hsound := h.reachable.sound
  have htyped := h.typed hvalid
  obtain rfl := renameType_eq_renamed hsound htyped hok
  have hgraph := renamed_wellFormed old new hsound.graph
  refine ⟨rfl, rfl, ?_, ws.graph.node?_renamed old new, fun s => Slots.get?_map _ _ s, ?_,
    fun hne => ?_, fun hfresh => renameType_back h hvalid hok hfresh⟩
  · exact Slots.keys_map _ _
  · refine List.eq_nil_iff_forall_not_mem.mpr ?_
    rintro ⟨s, e⟩ hmem
    obtain ⟨socket', hs', hstate⟩ := (mem_invalidSockets hgraph).mp hmem
    obtain ⟨socket, hs, rfl⟩ := Option.map_eq_some_iff.mp ((Slots.get?_map _ _ s).symm.trans hs')
    have hold := (mem_invalidSockets hsound.graph).mpr ⟨socket, hs, hstate⟩
    rw [hvalid] at hold
    exact List.not_mem_nil hold
  · rw [mentions, Bool.or_eq_false_iff]
    exact ⟨Registry.mentions_renamed hne, Graph.mentions_renamed hne⟩

/-- A recursive type that another type, a function, a constructor and a distinction of cases
mention. -/
def shapes : List Action :=
  [.defineType "Shape" [⟨"Dot", []⟩, ⟨"Pair", [some (.lit "Shape" []), none]⟩],
    .defineType "Scene" [⟨"Scene", [some (.lit "List" [.lit "Shape" []])]⟩],
    .defineFunction "grow" (.fn (.lit "Shape" []) (.lit "Shape" [])), .addNode (.function "grow"),
    .addNode (.ctor "Dot"), .connect 2 1, .addNode (.caseOf "Shape" [[], ["a", "b"]]),
    .connect 0 4]

theorem renameType_only_renames_shapes :
    ∃ ws ws', empty.runAll shapes = some ws ∧ ws.resolveAll.2.Resolved ∧
      ws.resolveAll.2.invalidSockets = [] ∧ ws.resolveAll.2.mentions "Shape" = true ∧
      ws.resolveAll.2.mentions "Figure" = false ∧
      renameType "Shape" "Figure" ws.resolveAll.2 = .ok "Figure" ws' ∧
      ws'.invalidSockets = [] ∧ ws'.mentions "Shape" = false ∧
      renameType "Figure" "Shape" ws' = .ok "Shape" ws.resolveAll.2 := by
  have hrun : ((empty.runAll shapes).any fun ws =>
      ws.resolveAll.2.invalidSockets.isEmpty && ws.resolveAll.2.mentions "Shape" &&
      !ws.resolveAll.2.mentions "Figure" &&
      decide ("Shape" ∈ ws.resolveAll.2.registry.types.map UserType.name) &&
      !ws.resolveAll.2.registry.isKnownType "Figure") = true := by
    simp only [shapes, runAll, Action.run_defineType]
    cbv
  simp only [Option.any_eq_true, Bool.and_eq_true, Bool.not_eq_true', List.isEmpty_iff,
    decide_eq_true_eq] at hrun
  obtain ⟨ws, hsome, ⟨⟨⟨hvalid, hshape⟩, hfigure⟩, hknown⟩, hfree⟩ := hrun
  have hresolved : ws.resolveAll.2.Resolved := .resolveAll (Reachable.empty.runAll hsome)
  have hlegal : Naming.Legal "Figure" :=
    ⟨'F', ['i', 'g', 'u', 'r', 'e'], by simp, by decide, by simp⟩
  have hok := renameType_of_legal hresolved.reachable.sound.graph (hresolved.typed hvalid) hknown
    hlegal (by decide) hfree
  obtain ⟨_, _, _, _, _, hnone, hold, hback⟩ := renameType_only_renames hresolved hvalid hok
  exact ⟨ws, _, hsome, hresolved, hvalid, hshape, hfigure, hok, hnone, hold (by decide),
    hback hfigure⟩

end Workspace
end BlockGraph
