import BlockGraph.Proofs.Registry.Redefinition
import BlockGraph.Proofs.Workspace.Branches
import BlockGraph.Proofs.Workspace.OnlyRenames
import BlockGraph.Proofs.Workspace.Resigning

/-!
# A type that is deleted and defined again

Deleting a type leaves the nodes that depend on it without a signature, with their
inputs, names and links as they are.  These are the nodes that a new definition looks
at.  If it is the old one again, they find the signatures that they had, up to
variables, and everything is solved as before.
-/

namespace BlockGraph
namespace Workspace

variable {ws ws₁ ws' : Workspace} {n : NodeId} {node : Node} {t : UserType} {nodes : List NodeId}

/-! ## Deleting -/

/-- If no other type mentions the type, deleting it looks at the nodes that depend on it. -/
theorem deleteType_of_unmentioned (h : ws.graph.WellFormed) (hnamed : ws.registry.Named)
    (ht : t ∈ ws.registry.types)
    (hfields : ∀ u ∈ ws.registry.types, u.name ≠ t.name → fieldMentions t.name u = false) :
    ∃ listed nodes, deleteType t.name ws =
        .ok listed ({ ws with registry := ws.registry.without t.name }.rebuild nodes).2 ∧
      ∀ n node, ws.graph.node? n = some node →
        (n ∈ nodes ↔ node.block.dependsOn ws.registry t.name = true) := by
  have hreferrers : (ws.registry.types.filter fun u =>
      u.name ≠ t.name && fieldMentions t.name u) = [] := by
    refine List.filter_eq_nil_iff.mpr fun u hu => ?_
    by_cases hname : u.name = t.name
    · simp [hname]
    · simp [hfields u hu hname]
  unfold deleteType onRegistry
  rw [Registry.deleteType_of_unmentioned hnamed ht hfields]
  refine ⟨_, _, rfl, fun n node hn => ?_⟩
  simp only [hreferrers, List.map_nil, List.any_nil, Bool.or_false, List.mem_filter,
    decide_eq_true_eq, dependents, mem_nodesWhere h]
  constructor
  · rintro ⟨_, node', hn', hdep⟩
    rw [hn] at hn'
    cases hn'
    exact hdep
  · exact fun hdep => ⟨Graph.mem_nodeIds.mpr ⟨node, hn⟩, node, hn, hdep⟩

theorem deleteType_refitted (h : ws.Resolved) (ht : t ∈ ws.registry.types)
    (hfields : ∀ u ∈ ws.registry.types, u.name ≠ t.name → fieldMentions t.name u = false) :
    ∃ listed ws₁ nodes, deleteType t.name ws = .ok listed ws₁ ∧
      Refitted { ws with registry := ws.registry.without t.name } ws₁ nodes ∧
      ∀ n node, ws.graph.node? n = some node →
        (n ∈ nodes ↔ node.block.dependsOn ws.registry t.name = true) := by
  have hgraph := h.reachable.sound.graph
  have hnamed := h.reachable.wellNamed
  obtain ⟨listed, nodes, hok, hnodes⟩ := deleteType_of_unmentioned hgraph hnamed.named ht hfields
  refine ⟨listed, _, nodes, hok, ?_, hnodes⟩
  refine @rebuild_refitted { ws with registry := ws.registry.without t.name } hgraph nodes
    fun n hmem node hn => ?_
  have hdep := (hnodes n node hn).mp hmem
  refine ⟨Block.syncBinders_without hdep, fun s₀ signature s₁ _ hderive => ?_⟩
  obtain ⟨fault, herror⟩ := Block.derive_without hnamed ht hdep s₀
  cases hderive.symm.trans herror

/-! ## Defining again -/

section Again

variable (h : ws.Resolved) (hvalid : ws.invalidSockets = []) (ht : t ∈ ws.registry.types)
include h hvalid ht

/-- With the type back, a search finds the signature that a node had, up to variables. -/
theorem derive_again {s : Supply} (hs : ws.supply.next ≤ s.next)
    (hn : ws.graph.node? n = some node) :
    ∃ signature s₁, node.block.derive (ws.registry.redefined t) s = .ok (signature, s₁) ∧
      Option.Rel TyTerm.RenamesTo node.signature signature := by
  obtain ⟨found, s₁, hderive, hrel⟩ :=
    h.reachable.upToDate.nodes n node hn (h.typed hvalid n node hn) s hs
  exact ⟨found, s₁, Block.derive_of_entriesKept hderive
    (Block.entriesKept_redefined h.reachable.wellNamed ht), hrel⟩

theorem fitting_again {s : Supply} (hs : ws.supply.next ≤ s.next)
    (hn : ws.graph.node? n = some node) : node.Fitting (ws.registry.redefined t) s := by
  have hnames := h.reachable.namesFields n node hn
  refine ⟨(hnames.of_counts fun type binders t' _ ht' => ?_).syncBinders,
    fun s₀ found s₁ hle hderive => ?_⟩
  · rw [Registry.userType?_redefined h.reachable.wellNamed.named ht] at ht'
    exact ⟨t', ht', rfl⟩
  · obtain ⟨signature, _, hagain, hrel⟩ := derive_again h hvalid ht (Nat.le_trans hs hle) hn
    cases hderive.symm.trans hagain
    rw [TyTerm.RenamesTo.rel_arity_eq hrel]
    exact ((h.reachable.sound.nodes n node hn).length_inputs (h.typed hvalid n node hn)).symm

/-- Defining a type again that has been deleted leads back to the workspace, up to variables. -/
theorem defineType_resigned
    (hdeleted : Refitted { ws with registry := ws.registry.without t.name } ws₁ nodes)
    (hnodes : ∀ n node, ws.graph.node? n = some node →
      (n ∈ nodes ↔ node.block.dependsOn ws.registry t.name = true)) :
    ∃ ws', defineType t.name t.variants ws₁ = .ok t.name ws' ∧
      ws'.registry = ws.registry.redefined t ∧ Resigned ws ws' := by
  have hnamed := h.reachable.wellNamed
  let again : Workspace := { ws₁ with
    registry := ws.registry.redefined t
    supply := ws₁.supply.past (fieldLeaves t.variants) }
  have hok : defineType t.name t.variants ws₁ = .ok t.name again.retryUntyped.2 := by
    unfold defineType onRegistry
    simp only [hdeleted.registry, Registry.defineType_redefined hnamed ht]
    rfl
  have hsupply : ws.supply.next ≤ again.supply.next :=
    Nat.le_trans hdeleted.supply (ws₁.supply.le_past _)
  have hgraph : again.graph.WellFormed :=
    (Graph.wellFormed_congr hdeleted.outline).mpr h.reachable.sound.graph
  have hrefitted : Refitted again again.retryUntyped.2
      (again.nodesWhere fun node => node.untyped.isSome) := by
    refine @rebuild_refitted again hgraph _ fun n _ node' hn' => ?_
    obtain ⟨node, signature, untyped, hn, rfl⟩ := hdeleted.node_back hn'
    exact (fitting_again h hvalid ht hsupply hn).mono (Nat.le_refl _) _ _
  refine ⟨_, hok, hrefitted.registry,
    ⟨hrefitted.outline.trans hdeleted.outline, fun n node hn => ?_, fun type variant field => ?_⟩⟩
  · -- A node that depends on the type has been looked at twice, and any other node not at all.
    have htyped := h.typed hvalid n node hn
    by_cases hdep : node.block.dependsOn ws.registry t.name = true
    · obtain ⟨_, untyped, hn₁, hlost⟩ := hdeleted.listed n ((hnodes n node hn).mpr hdep) node hn
      have huntyped := hlost.of_missing (Block.derive_without hnamed ht hdep)
      obtain ⟨signature, _, hn', hfinds⟩ := hrefitted.listed n
        ((mem_nodesWhere hgraph).mpr ⟨_, hn₁, huntyped⟩) _ hn₁
      have hagain := fun (s₀ : Supply) (hs₀ : again.supply.next ≤ s₀.next) =>
        derive_again h hvalid ht (Nat.le_trans hsupply hs₀) hn
      obtain ⟨hrel, rfl⟩ := hfinds.of_found hagain
      refine ⟨signature, hn'.trans ?_, hrel⟩
      rw [htyped]
    · have hother := (hdeleted.other n fun hmem => hdep ((hnodes n node hn).mp hmem)).trans hn
      refine ⟨node.signature, (hrefitted.other n fun hmem => ?_).trans hother,
        TyTerm.RenamesTo.rel_refl _⟩
      obtain ⟨node', hn', huntyped⟩ := (mem_nodesWhere hgraph).mp hmem
      cases hother.symm.trans hn'
      rw [htyped] at huntyped
      cases huntyped
  · rw [hrefitted.registry,
      Registry.fieldType?_congr (Registry.userType?_redefined hnamed.named ht type)]
    exact TyTerm.RenamesTo.rel_refl _

end Again

/-- In a workspace without an attached link that is still to be solved and without invalid sockets,
a type that no field of another type mentions can be deleted and defined again with its name and its
variants.  It is then as it was, behind the other types.  Every node is as it was, with the
same signature up to variables, the same inputs and the same links.  Every socket has its old state
and, up to one renaming of variables for each component, its old type. -/
theorem deleteType_defineType_restores (h : ws.Resolved) (hvalid : ws.invalidSockets = [])
    (ht : t ∈ ws.registry.types)
    (hfields : ∀ u ∈ ws.registry.types, u.name ≠ t.name → fieldMentions t.name u = false) :
    ∃ listed ws₁ ws', deleteType t.name ws = .ok listed ws₁ ∧
      defineType t.name t.variants ws₁ = .ok t.name ws' ∧
      ws'.registry = ws.registry.redefined t ∧
      (ws'.registry.userType? t.name).map (fun u => u.variants.map Variant.ctor) =
        some (t.variants.map Variant.ctor) ∧
      ws'.graph.links = ws.graph.links ∧ ws'.graph.nodeIds = ws.graph.nodeIds ∧
      (∀ n node, ws.graph.node? n = some node → ∃ signature,
        ws'.graph.node? n = some { node with signature } ∧
          Option.Rel TyTerm.RenamesTo node.signature signature) ∧
      ∀ seed n, ws.graph.owner? seed = some n → ∃ π : Equiv.Perm TyVar,
        ∀ s ∈ (ws.graph.component [seed]).sockets, ∃ socket,
          ws.graph.socket? s = some socket ∧
            ws'.graph.socket? s = some { socket with ty := socket.ty.map π } := by
  have hsound := h.reachable.sound
  have hsettled := h.settled
  have hvalid' := valid_of_invalidSockets hsound.graph hvalid
  obtain ⟨listed, ws₁, nodes, hdelete, hdeleted, hnodes⟩ := deleteType_refitted h ht hfields
  obtain ⟨ws', hdefine, hregistry, hr⟩ :=
    defineType_resigned h hvalid ht hdeleted hnodes
  have hfirst : RebuiltFrom ws ws₁ := by
    obtain ⟨_, _, hremove, rfl, _⟩ := deleteType_ok hdelete
    exact (Action.Redefines.deleteType hremove).rebuiltFrom hsound
  have hsound₁ := hfirst.sound hsound
  have hsecond : RebuiltFrom ws₁ ws' := by
    obtain ⟨_, hadd, rfl⟩ := defineType_ok hdefine
    exact (Action.Redefines.defineType hadd).rebuiltFrom hsound₁
  have hacyclic := acyclic_of_valid hsound.graph hsettled hvalid
  have hstates : ∀ n node, ws.graph.node? n = some node → ws.Solvable n → ws.StatesSettled n := by
    intro n node hn _
    have howner := Graph.owner?_output hsound.graph hn
    exact (hvalid' node.output).statesSettled hsound.graph
      ((hvalid' node.output).coherent hsound.graph hsettled howner) howner
  have hstates' := hsecond.states hsound₁.graph (hfirst.acyclic hacyclic)
    (hfirst.states hsound.graph hacyclic hstates)
  refine ⟨listed, ws₁, ws', hdelete, hdefine, hregistry, ?_,
    Graph.links_congr hr.outline, ?_, hr.node, fun seed n hseed => ?_⟩
  · have hnamed := h.reachable.wellNamed.named
    rw [hregistry, Registry.userType?_redefined hnamed ht, hnamed.userType? ht, Option.map_some]
  · rw [← Graph.nodeIds_outline, hr.outline, Graph.nodeIds_outline]
  · exact hr.exists_renaming hsound.graph hsettled hvalid
      (hsecond.settled hsound₁ (hfirst.settled hsound hsettled)) hstates' hseed

/-- A recursive type with a field that is not set, among nodes of each kind that depends on it and a
variable that one of its fields binds. -/
def trees : List Action :=
  [.defineType "Scene" [⟨"Scene", [some (.lit "Picture" [])]⟩],
    .defineType "Tree" [⟨"Leaf", [some (.var 0)]⟩,
      ⟨"Fork", [some (.lit "Tree" []), some (.lit "Tree" []), none]⟩],
    .defineFunction "grow" (.fn (.lit "Tree" []) (.lit "Tree" [])), .addNode (.function "grow"),
    .addNode (.ctor "Leaf"), .connect 2 1, .addNode (.caseOf "Tree" [["x"], ["l", "r", "y"]]),
    .connect 0 5, .addNode (.localVar "x"), .connect 8 6]

/-- Three nodes lose their signatures and find them again. -/
theorem deleteType_defineType_restores_trees :
    ∃ ws t listed ws₁ ws', empty.runAll trees = some ws ∧ ws.resolveAll.2.Resolved ∧
      ws.resolveAll.2.invalidSockets = [] ∧ t ∈ ws.resolveAll.2.registry.types ∧
      t.name = "Tree" ∧
      (∀ u ∈ ws.resolveAll.2.registry.types, u.name ≠ t.name → fieldMentions t.name u = false) ∧
      ws.resolveAll.2.dependents t.name = [0, 1, 2] ∧
      deleteType t.name ws.resolveAll.2 = .ok listed ws₁ ∧
      defineType t.name t.variants ws₁ = .ok t.name ws' ∧
      ws'.graph.links = ws.resolveAll.2.graph.links ∧
      ∃ π : Equiv.Perm TyVar, ∀ s ∈ (ws.resolveAll.2.graph.component [0]).sockets, ∃ socket,
        ws.resolveAll.2.graph.socket? s = some socket ∧
          ws'.graph.socket? s = some { socket with ty := socket.ty.map π } := by
  have hrun : ((empty.runAll trees).any fun ws =>
      ws.resolveAll.2.invalidSockets.isEmpty &&
      decide (ws.resolveAll.2.graph.owner? 0 = some 0) &&
      ws.resolveAll.2.registry.types.any fun t => decide (t.name = "Tree") &&
        decide (ws.resolveAll.2.dependents t.name = [0, 1, 2]) &&
        ws.resolveAll.2.registry.types.all fun u =>
          decide (u.name = t.name) || !fieldMentions t.name u) = true := by
    simp only [trees, runAll, Action.run_defineType]
    cbv
  simp only [Option.any_eq_true, List.any_eq_true, List.all_eq_true, Bool.and_eq_true,
    Bool.or_eq_true, Bool.not_eq_true', List.isEmpty_iff, decide_eq_true_eq] at hrun
  obtain ⟨ws, hsome, ⟨hvalid, howner⟩, t, ht, ⟨hname, hnodes⟩, hothers⟩ := hrun
  have hresolved : ws.resolveAll.2.Resolved := .resolveAll (Reachable.empty.runAll hsome)
  have hfields : ∀ u ∈ ws.resolveAll.2.registry.types, u.name ≠ t.name →
      fieldMentions t.name u = false := fun u hu hne => (hothers u hu).resolve_left hne
  obtain ⟨listed, ws₁, ws', hdelete, hdefine, _, _, hlinks, _, _, hsockets⟩ :=
    deleteType_defineType_restores hresolved hvalid ht hfields
  exact ⟨ws, t, listed, ws₁, ws', hsome, hresolved, hvalid, ht, hname, hfields, hnodes, hdelete,
    hdefine, hlinks, hsockets 0 0 howner⟩

end Workspace
end BlockGraph
