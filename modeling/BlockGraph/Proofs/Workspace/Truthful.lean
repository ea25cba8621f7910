import BlockGraph.Proofs.Graph.Cycles
import BlockGraph.Proofs.Workspace.Incremental
import BlockGraph.Proofs.Workspace.Validation

/-!
# Stored states tell the truth

Edits of nodes and links keep the states of sockets up to date piece by piece.
Connecting sets the states at the two ends of a link and leaves the others of its
component as they are, whether they are valid or not.  All other edits rebuild the
components at which the graph has changed.

The check from scratch reads no states.  It finds no error in a component if some
types fit it and no node of it depends on itself, and only then (`Solvable`).  So
states can be told from the check by one invariant, `Truthful`: what can be solved
has the states that its links call for, and what cannot be solved has an invalid
socket.
-/

namespace BlockGraph

namespace Node

variable {node : Node} {r : Registry} {s s' : Supply}

theorem Installed.fitsRegistry {node' : Node} (h : node.Installed r s node') :
    node'.fitsRegistry r s := by
  cases h with
  | @found signature s₁ inputs hderive hinputs =>
    cases signature with
    | none =>
      have hempty : inputs = [] := List.length_eq_zero_iff.mp hinputs
      simp [Node.fitsRegistry, Block.derive_syncBinders, hderive, hempty]
    | some t =>
      have hlen : inputs.length = t.arity := hinputs
      simp [Node.fitsRegistry, Block.derive_syncBinders, hderive, hlen,
        TyTerm.alphaEq_iff.mpr (.refl t)]
  | missing hderive =>
    simp [Node.fitsRegistry, Block.derive_syncBinders, hderive]

theorem LookedUp.fitsRegistry (hr : r.Below s) (h : node.LookedUp r s s') :
    node.fitsRegistry r s' := by
  obtain ⟨node₀, s₀, hle, hle', hinst⟩ := h
  exact fitsRegistry_mono (hr.mono hle) hle' hinst.fitsRegistry

theorem fitsRegistry_withBinders {type : String} {binders : List (List String)}
    (h : node.fitsRegistry r s) (hblock : node.block = .caseOf type binders)
    (binders' : List (List String)) :
    Node.fitsRegistry r s { node with block := .caseOf type binders' } := by
  rw [Node.fitsRegistry, hblock] at h
  exact h

end Node

namespace Workspace

variable {ws ws' : Workspace} {m n p c : NodeId} {node : Node} {o i : SocketId}

/-! ## Errors of a rebuild -/

theorem untypedErrors_eq_nil_iff {nodes : List NodeId} :
    ws.untypedErrors nodes = [] ↔
      ∀ n ∈ nodes, ∀ node, ws.graph.node? n = some node → node.untyped = none := by
  simp only [untypedErrors, List.filterMap_eq_nil_iff, Option.bind_eq_none_iff]

/-- A rebuild lists no error if everything that it rebuilds can be solved, and only then. -/
theorem recompute_eq_nil_iff (h : ws.Sound) (seeds : List SocketId) :
    (ws.recompute seeds).1 = [] ↔ ∀ n ∈ (ws.graph.component seeds).nodes, ws.Solvable n := by
  have hiff := Graph.topologicalOrder_component_iff h.graph seeds
  cases horder : ws.graph.topologicalOrder (ws.graph.component seeds).nodes with
  | error cycle =>
    rw [recompute_of_cycle h.graph horder]
    refine iff_of_false (List.append_ne_nil_of_right_ne_nil _ (List.cons_ne_nil _ _)) fun hall => ?_
    obtain ⟨order, hok⟩ :=
      hiff.mpr fun n hn => (Graph.not_cyclic_iff h.graph).mpr (hall n hn).ranked
    rw [horder] at hok
    cases hok
  | ok order =>
    obtain ⟨ws₁, z, failures, es, hs, herrors⟩ := recompute_solved h.graph horder
    rw [herrors, List.append_eq_nil_iff, untypedErrors_eq_nil_iff, List.map_eq_nil_iff]
    constructor
    · rintro ⟨htyped, rfl⟩ n hn
      have hranked := (Graph.not_cyclic_iff h.graph).mp (hiff.mp ⟨order, horder⟩ n hn)
      have hcoherent := hs.coherent h.graph h.nodes hn
        (fun m node hm => htyped m (Graph.component_closed h.graph hn hm) node) hranked
        fun f hf => absurd hf List.not_mem_nil
      exact hcoherent.solvable.of_sameShape
        (recompute_rebuilt h.graph h.nodes seeds).sameShape.symm
    · intro hall
      refine ⟨fun n hn node => (hall n hn).typed n node (.refl _ n), ?_⟩
      refine List.eq_nil_iff_forall_not_mem.mpr fun f hf => ?_
      obtain ⟨_, ⟨m, ho, hm⟩, _⟩ := hs.failed f hf
      exact hs.not_failed h.graph h.nodes hm (hall m hm) f hf ⟨m, ho, .refl _ m⟩

theorem recomputeEach_eq_nil_iff (h : ws.Sound) (nodes : List NodeId) :
    (ws.recomputeEach nodes).1 = [] ↔
      ∀ n ∈ nodes, ∀ node, ws.graph.node? n = some node → ws.Solvable n := by
  induction nodes generalizing ws with
  | nil => exact iff_of_true rfl fun n hn => absurd hn List.not_mem_nil
  | cons x rest ih =>
    let seeds := (ws.graph.socketAt? x .output).toList
    have hshape := (recompute_rebuilt h.graph h.nodes seeds).sameShape
    have hfirst : (∀ n ∈ (ws.graph.component seeds).nodes, ws.Solvable n) ↔
        ∀ node, ws.graph.node? x = some node → ws.Solvable x := by
      constructor
      · exact fun hall node hx => hall x ((Graph.mem_component_output h.graph hx).mpr (.refl _ x))
      · intro hsolvable n hn
        obtain ⟨t, ht, _⟩ := (Graph.mem_component_nodes h.graph).mp hn
        obtain ⟨node, hx, _⟩ := Option.map_eq_some_iff.mp (Option.mem_toList.mp ht)
        have hc := (Graph.mem_component_output h.graph hx).mp hn
        exact (hsolvable node hx).of_connected hc.symm
    show (ws.recompute seeds).1 ++ ((ws.recompute seeds).2.recomputeEach rest).1 = [] ↔ _
    rw [List.append_eq_nil_iff, recompute_eq_nil_iff h, hfirst, ih ((h.prepared seeds).sound h),
      List.forall_mem_cons]
    refine and_congr_right fun _ => forall₂_congr fun n _ => forall_congr' fun node => ?_
    rw [hshape.node?]
    exact imp_congr_right fun _ => ⟨.of_sameShape hshape.symm, .of_sameShape hshape⟩

theorem resolveAll_eq_nil_iff (h : ws.Sound) :
    ws.resolveAll.1 = [] ↔ ∀ n node, ws.graph.node? n = some node → ws.Solvable n := by
  refine (recomputeEach_eq_nil_iff h _).trans ⟨fun hall n node hn => ?_, fun hall n _ => hall n⟩
  obtain ⟨m, node', hm, hnode', hc⟩ := Graph.mem_components h.graph hn
  exact (hall m hm node' hnode').of_connected hc.symm

theorem unboundErrors_eq_nil_iff (h : ws.graph.WellFormed) :
    ws.unboundErrors = [] ↔ ∀ n node name, ws.graph.node? n = some node →
      node.block = .localVar name → (ws.binding? none n).isSome := by
  rw [unboundErrors, List.filterMap_eq_nil_iff]
  constructor
  · intro hall n node name hn hblock
    have hnone := hall (n, node) ((Slots.mem_entries_iff h.nodes).mpr hn)
    simp only [unboundError?, hblock] at hnone
    cases hbinding : ws.binding? none n with
    | none => simp [hbinding] at hnone
    | some binding => rfl
  · rintro hall ⟨n, node⟩ hmem
    have hn := (Slots.mem_entries_iff h.nodes).mp hmem
    cases hblock : node.block with
    | localVar name =>
      have hbound := hall n node name hn hblock
      simp [unboundError?, hblock, Option.ne_none_iff_isSome.mpr hbound]
    | _ => simp [unboundError?, hblock]

/-! ## The invariant -/

/-- What edits of nodes and links keep: nodes are as the registry has it, no node depends on itself,
and what can be solved has the states that its links call for. -/
structure Truthful (ws : Workspace) : Prop where
  sound : ws.Sound
  settled : ws.Settled
  below : ws.registry.Below ws.supply
  fits : ∀ n node, ws.graph.node? n = some node → node.fitsRegistry ws.registry ws.supply
  acyclic : ws.graph.Acyclic
  states : ∀ n node, ws.graph.node? n = some node → ws.Solvable n → ws.StatesSettled n

theorem truthful_of_registry {r : Registry} {s : Supply} (hr : r.Below s) :
    Truthful { graph := {}, registry := r, supply := s } := by
  refine ⟨sound_of_registry r s, settled_of_registry r s, hr, fun n node hn => ?_,
    Graph.empty_acyclic, fun n node hn => ?_⟩
  · cases (empty_node? n).symm.trans hn
  · cases (empty_node? n).symm.trans hn

/-- No socket is invalid if everything can be solved, and only then. -/
theorem Truthful.invalidSockets_eq_nil_iff (h : ws.Truthful) :
    ws.invalidSockets = [] ↔ ∀ n node, ws.graph.node? n = some node → ws.Solvable n := by
  constructor
  · intro hnone n node hn
    have hvalid := valid_of_invalidSockets h.sound.graph hnone node.output
    exact (hvalid.coherent h.sound.graph h.settled (Graph.owner?_output h.sound.graph hn)).solvable
  · intro hall
    refine List.eq_nil_iff_forall_not_mem.mpr fun ⟨s, e⟩ hmem => ?_
    obtain ⟨socket, hs, hstate⟩ := (mem_invalidSockets h.sound.graph).mp hmem
    have howner := Graph.owner?_of_socket? hs
    obtain ⟨node, hn, _⟩ := Graph.owner?_node h.sound.graph howner
    have hsolvable := hall socket.node node hn
    have hvalid := (h.states socket.node node hn hsolvable).valid h.sound.graph hsolvable howner
    exact hvalid.ne_invalid h.sound.graph howner hs (.refl _ _) e hstate

/-- The check from scratch finds nothing if everything can be solved and every pattern variable is
bound, and only then. -/
theorem Truthful.validate_eq_nil_iff (h : ws.Truthful) :
    ws.validate = [] ↔ (∀ n node, ws.graph.node? n = some node → ws.Solvable n) ∧
      ∀ n node name, ws.graph.node? n = some node → node.block = .localVar name →
        (ws.binding? none n).isSome := by
  have hcard := Multiset.card_eq_card_of_rel (validate_rel h.sound h.below h.fits)
  rw [Multiset.coe_card, Multiset.coe_card] at hcard
  rw [← List.length_eq_zero_iff, hcard, List.length_eq_zero_iff, List.append_eq_nil_iff,
    resolveAll_eq_nil_iff h.sound, unboundErrors_eq_nil_iff h.sound.graph]

/-! ## What a step keeps -/

theorem Revised.fits {nodes : List NodeId} (h : Revised ws ws' nodes)
    (hr : ws.registry.Below ws.supply)
    (hfits : ∀ n node, ws.graph.node? n = some node → node.fitsRegistry ws.registry ws.supply)
    (n : NodeId) (node : Node) (hn : ws'.graph.node? n = some node) :
    node.fitsRegistry ws'.registry ws'.supply := by
  rw [h.registry]
  rcases h.node n node hn with hlook | ⟨hn, _⟩
  · exact hlook.fitsRegistry hr
  · exact Node.fitsRegistry_mono hr h.supply (hfits n node hn)

theorem RebuiltFrom.acyclic (h : RebuiltFrom ws ws') (hacyclic : ws.graph.Acyclic) :
    ws'.graph.Acyclic := by
  obtain ⟨ws₁, seeds, hp, rfl⟩ := h
  refine hacyclic.of_feeds fun p c hf => hp.feeds p c ?_
  rwa [Graph.feeds_congr (recompute_rebuilt hp.graph hp.nodes seeds).sameShape.outline] at hf

theorem statesSettled_local : Local fun ws n => ws.Solvable n → ws.StatesSettled n :=
  fun h h' hsame hstates hsolvable =>
    (hstates (hsolvable.of_same h' h (same_of_connected_iff h h' hsame))).of_same h h' hsame

/-- What is rebuilt is solved again, and everything else is as it was. -/
theorem RebuiltFrom.states (h : RebuiltFrom ws ws') (hws : ws.graph.WellFormed)
    (hacyclic : ws.graph.Acyclic)
    (hstates : ∀ n node, ws.graph.node? n = some node → ws.Solvable n → ws.StatesSettled n)
    (n : NodeId) (node : Node) (hn : ws'.graph.node? n = some node) (hsolvable : ws'.Solvable n) :
    ws'.StatesSettled n := by
  refine h.holds statesSettled_local hws (fun n ws₁ seeds hp hmem hsolvable => ?_) hstates n node hn
    hsolvable
  have hshape := (recompute_rebuilt hp.graph hp.nodes seeds).sameShape
  refine recompute_statesSettled hp.graph hp.nodes hmem ?_ (hsolvable.of_sameShape hshape.symm)
  exact (Graph.topologicalOrder_component_iff hp.graph seeds).mpr fun m _ =>
    (hacyclic.of_feeds hp.feeds).not_cyclic m

theorem Solvable.of_attached (h : ws.graph.WellFormed) (hl : Graph.Linkable ws.graph o i p c)
    (hs : (ws.attached o i).Solvable p)
    (hn : ∀ m, ws.graph.Connected n m → ws.Joined o i p m) : ws.Solvable n := by
  obtain ⟨rank, hrank⟩ := hs.ranked
  obtain ⟨A, hA⟩ := hs.typing
  refine ⟨fun m node hm hnode => hs.typed m node (hn m hm) hnode,
    ⟨rank, fun a b ha hf => hrank a b (hn a ha) (hl.feeds_iff.mpr (.inl hf))⟩, A, ?_⟩
  exact typing_of_attached h hl hn hA

/-- Connecting sets the states at the ends of the link.  All others of the new component were right
if it can be solved, since each of its parts could be solved before. -/
theorem LinkMade.states {z : TyVar → Ty} (hm : LinkMade ws ws' o i p z) (h : ws.Sound)
    (hl : Graph.Linkable ws.graph o i p c)
    (hstates : ∀ n node, ws.graph.node? n = some node → ws.Solvable n → ws.StatesSettled n)
    (n : NodeId) (node : Node) (hn : ws'.graph.node? n = some node) (hsolvable : ws'.Solvable n) :
    ws'.StatesSettled n := by
  have hold : ws.graph.node? n = some node := (hm.sameShape.node? n).symm.trans hn
  by_cases hJ : ws.Joined o i p n
  · have hattached : (ws.attached o i).Solvable p :=
      (hsolvable.of_sameShape hm.sameShape.symm).of_connected hJ
    obtain ⟨pnode, hpnode, _⟩ := Graph.owner?_node h.graph hl.owner_output
    obtain ⟨cnode, hcnode, _⟩ := Graph.owner?_node h.graph hl.owner_input
    have hp := hstates p pnode hpnode
      (hattached.of_attached h.graph hl fun m hm => hl.connected_iff.mpr (.inl hm))
    have hc := hstates c cnode hcnode
      (hattached.of_attached h.graph hl fun m hm => hl.connected_iff.mpr (.inr hm))
    exact (hm.statesSettled h.graph hl hp hc).of_connected (hm.sameShape.connected.mpr hJ.symm)
  · exact hm.holds_of_not_joined statesSettled_local h hl hJ (hstates n node hold) hsolvable

/-- The edits of nodes and links that leave nothing to be solved later. -/
def Action.editsGraph : Action → Bool
  | addNode _ | removeNode _ | connect _ _ | disconnect _ _ | setArity _ _ | renameBinder _ _ _ _ =>
    true
  | _ => false

namespace Truthful

/-- An edit that ends with a rebuild may change nodes before it looks for signatures, as long as
they fit the registry. -/
theorem rebuiltFrom (h : ws.Truthful) (hb : RebuiltFrom ws ws') {graph : Graph}
    (hr : Revised { ws with graph } ws' [])
    (hfits : ∀ n node, graph.node? n = some node → node.fitsRegistry ws.registry ws.supply) :
    ws'.Truthful :=
  ⟨hb.sound h.sound, hb.settled h.sound h.settled, hr.registry ▸ h.below.mono hr.supply,
    hr.fits h.below hfits, hb.acyclic h.acyclic, hb.states h.sound.graph h.acyclic h.states⟩

theorem connect (h : ws.Truthful) (hok : connect o i ws = .ok () ws') : ws'.Truthful := by
  have hr := connect_revised h.sound hok
  obtain ⟨hsound, hsettled⟩ := connect_kept h.sound hok
  obtain ⟨p, c, z, hl, hcycle, _, hm⟩ := connect_ok h.sound.graph hok
  refine ⟨hsound, hsettled h.settled, hr.registry ▸ h.below.mono hr.supply, hr.fits h.below h.fits,
    (hl.acyclic h.acyclic hcycle).of_feeds fun a b hf => ?_, hm.states h.sound hl h.states⟩
  rwa [Graph.feeds_congr hm.sameShape.outline] at hf

theorem renameBinder (h : ws.Truthful) {branch field : Nat} {name given : String}
    (hok : renameBinder n branch field name ws = .ok given ws') : ws'.Truthful := by
  obtain ⟨node, type, binders, binders', hn, hblock, _, hr⟩ := renameBinder_revised hok
  refine h.rebuiltFrom (renameBinder_rebuiltFrom h.sound hok) hr fun m node' hm => ?_
  rw [Graph.node?_modifyNode hn] at hm
  split at hm
  · cases hm
    exact Node.fitsRegistry_withBinders (h.fits n node hn) hblock binders'
  · exact h.fits m node' hm

theorem run (h : ws.Truthful) {action : Action} (hedits : action.editsGraph = true)
    (hrun : action.run ws = some ws') : ws'.Truthful := by
  cases action with
  | addNode block =>
    have hrun : after? (Workspace.addNode block) ws = some ws' := hrun
    obtain ⟨_, hok⟩ := after?_eq_some hrun
    exact h.rebuiltFrom (addNode_rebuiltFrom h.sound hok) (addNode_revised h.sound hok) h.fits
  | removeNode n =>
    obtain ⟨_, hok⟩ := after?_eq_some hrun
    exact h.rebuiltFrom (removeNode_rebuiltFrom h.sound hok) (removeNode_revised h.sound hok) h.fits
  | connect output input =>
    obtain ⟨_, hok⟩ := after?_eq_some hrun
    exact h.connect hok
  | disconnect output input =>
    obtain ⟨_, hok⟩ := after?_eq_some hrun
    exact h.rebuiltFrom (disconnect_rebuiltFrom h.sound hok) (disconnect_revised h.sound hok) h.fits
  | setArity n items =>
    obtain ⟨_, hok⟩ := after?_eq_some hrun
    exact h.rebuiltFrom (setArity_rebuiltFrom h.sound hok) (setArity_revised h.sound hok) h.fits
  | renameBinder n branch field name =>
    obtain ⟨_, hok⟩ := after?_eq_some hrun
    exact h.renameBinder hok
  | _ => cases hedits

theorem runAll (h : ws.Truthful) {actions : List Action}
    (hedits : ∀ action ∈ actions, action.editsGraph = true)
    (hrun : ws.runAll actions = some ws') : ws'.Truthful :=
  runAll_kept (fun action hmem _ _ hws hstep => hws.run (hedits action hmem) hstep) h hrun

end Truthful

/-- Over any registry whose variables come from the supply, after any edits of nodes and links that
were not refused, the check from scratch finds no error if no socket is stored as invalid and every
pattern variable is bound, and only then. -/
theorem validate_nil_iff_states {r : Registry} {s : Supply} {actions : List Action}
    (hr : r.Below s) (hedits : ∀ action ∈ actions, action.editsGraph = true)
    (hrun : runAll { graph := {}, registry := r, supply := s } actions = some ws) :
    ws.validate = [] ↔ ws.invalidSockets = [] ∧
      ∀ n node name, ws.graph.node? n = some node → node.block = .localVar name →
        (ws.binding? none n).isSome := by
  have h := (truthful_of_registry hr).runAll hedits hrun
  rw [h.validate_eq_nil_iff, h.invalidSockets_eq_nil_iff]

/-- A type with two fields, and a function that takes one of them. -/
def entryRegistry : Registry where
  types := [⟨"Entry", [⟨"Entry", [some (.lit "Number" []), some (.lit "Bool" [])]⟩]⟩]
  functions := ("half", .fn (.lit "Number" []) (.lit "Number" [])) :: Registry.prelude

/-- The first field of an entry is halved.  Then the two fields swap their names, which makes the
link to the function fail, and an entry is connected to what has failed. -/
def swappedFields : List Action :=
  [.addNode (.caseOf "Entry" [["n", "b"]]), .addNode (.localVar "n"), .addNode (.function "half"),
    .connect 3 2, .connect 0 5, .renameBinder 0 0 0 "m", .renameBinder 0 0 1 "n",
    .addNode (.ctor "Entry"), .connect 6 1]

theorem entryRegistry_below : entryRegistry.Below Registry.preludeSupply := by
  have hfields : ∀ e ∈ entryRegistry.ctors, ∀ field ∈ e.2.fields, ∀ ty ∈ field, ∀ v ∈ ty.leaves,
      v < Registry.preludeSupply.next := by decide
  exact ⟨by decide, fun e he ty hty => hfields e he (some ty) hty ty rfl⟩

/-- The check sees the failed link as the states do, and neither sees it when the link is gone. -/
theorem validate_nil_iff_states_swappedFields :
    entryRegistry.Below Registry.preludeSupply ∧
      (∀ action ∈ swappedFields ++ [.disconnect 0 5], action.editsGraph = true) ∧
      ∃ ws ws' : Workspace,
        runAll { graph := {}, registry := entryRegistry, supply := Registry.preludeSupply }
          swappedFields = some ws ∧ ws.invalidSockets ≠ [] ∧ ws.validate ≠ [] ∧
        runAll { graph := {}, registry := entryRegistry, supply := Registry.preludeSupply }
          (swappedFields ++ [.disconnect 0 5]) = some ws' ∧ ws'.invalidSockets = [] ∧
        ws'.validate = [] := by
  let start : Workspace :=
    { graph := {}, registry := entryRegistry, supply := Registry.preludeSupply }
  have hfails : ((start.runAll swappedFields).any fun ws => !ws.invalidSockets.isEmpty) = true := by
    cbv
  have hmended : ((start.runAll (swappedFields ++ [.disconnect 0 5])).any fun ws =>
      ws.invalidSockets.isEmpty && ws.unboundErrors.isEmpty) = true := by
    cbv
  simp only [Option.any_eq_true, Bool.and_eq_true, Bool.not_eq_true', List.isEmpty_iff,
    List.isEmpty_eq_false_iff] at hfails hmended
  obtain ⟨ws, hrun, hinvalid⟩ := hfails
  obtain ⟨ws', hrun', hnone, hbound⟩ := hmended
  have hbelow := entryRegistry_below
  have hedits : ∀ action ∈ swappedFields ++ [.disconnect 0 5], action.editsGraph = true := by decide
  have hfirst := validate_nil_iff_states hbelow (List.forall_mem_append.mp hedits).1 hrun
  have hgraph := ((truthful_of_registry hbelow).runAll hedits hrun').sound.graph
  exact ⟨hbelow, hedits, ws, ws', hrun, hinvalid,
    fun hvalid => hinvalid (hfirst.mp hvalid).1, hrun',
    hnone, (validate_nil_iff_states hbelow hedits hrun').mpr
      ⟨hnone, (unboundErrors_eq_nil_iff hgraph).mp hbound⟩⟩

end Workspace
end BlockGraph
