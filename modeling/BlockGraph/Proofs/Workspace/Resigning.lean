import BlockGraph.Proofs.Workspace.Install
import BlockGraph.Proofs.Workspace.Signatures
import BlockGraph.Proofs.Workspace.Truthful

/-!
# Signatures that differ in their variables

Which variables stand in a signature, or in a field of a type, makes no difference to
the types that fit.  `Resigned` says that two workspaces differ in these and in what
sockets hold, and in nothing else.  If both are solved, then what sockets hold differs
by a renaming too.

A search for signatures can lead from one such workspace to another.  It leaves all
inputs where they are as long as each signature that it finds has as many parameters
as its node has inputs (`Refitted`).
-/

namespace BlockGraph

variable {node : Node}

theorem TyTerm.RenamesTo.instanceOf_iff {t t' : Ty} (h : t.RenamesTo t') {A : Assignment} :
    node.InstanceOf (t'.uncurry.1 ++ [t'.uncurry.2]) A ↔
      node.InstanceOf (t.uncurry.1 ++ [t.uncurry.2]) A := by
  obtain ⟨f, hf, rfl⟩ := h
  have hiff : node.InstanceOf ((t.uncurry.1 ++ [t.uncurry.2]).map (map f)) A ↔ _ :=
    Workspace.instanceOf_map fun v hv w hw =>
      hf v (t.leavesAll_uncurry hv) w (t.leavesAll_uncurry hw)
  rw [List.map_append, List.map_singleton] at hiff
  rw [uncurry_map]
  exact hiff

/-- The variables in a signature make no difference to the types that fit the node. -/
theorem Node.fits_iff_of_renamesTo {signature : Option Ty} {A : Assignment}
    (h : Option.Rel TyTerm.RenamesTo node.signature signature) :
    (∃ scheme, Node.scheme? { node with signature } = some scheme ∧
        Node.InstanceOf { node with signature } scheme A) ↔
      ∃ scheme, node.scheme? = some scheme ∧ node.InstanceOf scheme A := by
  obtain ⟨block, signature₀, untyped, inputs, output⟩ := node
  cases h with
  | none => exact Iff.rfl
  | some h =>
    simp only [scheme?, Option.some.injEq, exists_eq_left']
    exact h.instanceOf_iff

/-- What a search finds for a block, with some supply after the given one. -/
def Block.Finds (r : Registry) (s : Supply) (block : Block) (signature : Option Ty)
    (untyped : Option TypeError) : Prop :=
  ∃ s₀ : Supply, s.next ≤ s₀.next ∧
    ((∃ s₁, block.derive r s₀ = .ok (signature, s₁) ∧ untyped = none) ∨
      ∃ fault, block.derive r s₀ = .error fault ∧ signature = none ∧
        untyped = some (.invalidSignature fault))

namespace Block.Finds

variable {r : Registry} {s s' : Supply} {block : Block} {signature : Option Ty}
  {untyped : Option TypeError}

theorem mono (h : block.Finds r s' signature untyped) (hs : s.next ≤ s'.next) :
    block.Finds r s signature untyped := by
  obtain ⟨s₀, hle, hfound⟩ := h
  exact ⟨s₀, Nat.le_trans hs hle, hfound⟩

theorem of_missing (h : block.Finds r s signature untyped)
    (hmissing : ∀ s₀, ∃ fault, block.derive r s₀ = .error fault) : untyped.isSome := by
  obtain ⟨s₀, _, ⟨s₁, hderive, _⟩ | ⟨_, _, _, rfl⟩⟩ := h
  · obtain ⟨fault, herror⟩ := hmissing s₀
    cases hderive.symm.trans herror
  · rfl

theorem of_found (h : block.Finds r s signature untyped) {P : Option Ty → Prop}
    (hfound : ∀ s₀ : Supply, s.next ≤ s₀.next → ∃ signature s₁,
      block.derive r s₀ = .ok (signature, s₁) ∧ P signature) : P signature ∧ untyped = none := by
  obtain ⟨s₀, hle, ⟨s₁, hderive, rfl⟩ | ⟨fault, hderive, _⟩⟩ := h
  · obtain ⟨found, _, hok, hP⟩ := hfound s₀ hle
    cases hderive.symm.trans hok
    exact ⟨hP, rfl⟩
  · obtain ⟨_, _, hok, _⟩ := hfound s₀ hle
    cases hderive.symm.trans hok

end Block.Finds

/-- The names and inputs of a node are those that its signature will ask for. -/
structure Node.Fitting (r : Registry) (s : Supply) (node : Node) : Prop where
  names : node.block.syncBinders r = node.block
  inputs : ∀ s₀ signature s₁, s.next ≤ s₀.next → node.block.derive r s₀ = .ok (signature, s₁) →
    (signature.map TyTerm.arity).getD 0 = node.inputs.length

theorem Node.Fitting.mono {r : Registry} {s s' : Supply} (h : node.Fitting r s)
    (hs : s.next ≤ s'.next) (signature : Option Ty) (untyped : Option TypeError) :
    Node.Fitting r s' { node with signature, untyped } :=
  ⟨h.names, fun s₀ found s₁ hle => h.inputs s₀ found s₁ (Nat.le_trans hs hle)⟩

namespace Workspace

variable {ws ws' : Workspace} {n : NodeId} {node node' : Node} {A : Assignment}

/-! ## Workspaces up to variables in signatures -/

/-- The same workspace with other variables in signatures and fields, and with other types and
states of sockets. -/
structure Resigned (ws ws' : Workspace) : Prop where
  outline : ws'.graph.outline = ws.graph.outline
  node : ∀ n node, ws.graph.node? n = some node → ∃ signature,
    ws'.graph.node? n = some { node with signature } ∧
      Option.Rel TyTerm.RenamesTo node.signature signature
  field : ∀ type variant field, Option.Rel TyTerm.RenamesTo
    (ws.registry.fieldType? type variant field) (ws'.registry.fieldType? type variant field)

namespace Resigned

theorem node_back (h : Resigned ws ws') (hn : ws'.graph.node? n = some node') :
    ∃ node signature, ws.graph.node? n = some node ∧ node' = { node with signature } ∧
      Option.Rel TyTerm.RenamesTo node.signature signature := by
  obtain ⟨node, hnode, _⟩ := Graph.node?_congr h.outline.symm hn
  obtain ⟨signature, hn', hrel⟩ := h.node n node hnode
  rw [hn] at hn'
  cases hn'
  exact ⟨node, signature, hnode, rfl, hrel⟩

theorem map_node? (h : Resigned ws ws') {α : Type} {f : Node → α}
    (hf : ∀ node signature, f { node with signature } = f node) (n : NodeId) :
    (ws'.graph.node? n).map f = (ws.graph.node? n).map f := by
  cases hn : ws'.graph.node? n with
  | some node' =>
    obtain ⟨node, signature, hnode, rfl, _⟩ := h.node_back hn
    rw [hnode, Option.map_some, Option.map_some, hf]
  | none =>
    cases hnode : ws.graph.node? n with
    | none => rfl
    | some node =>
      obtain ⟨signature, hn', _⟩ := h.node n node hnode
      rw [hn] at hn'
      cases hn'

theorem bindingSite? (h : Resigned ws ws') (n : NodeId) :
    Workspace.bindingSite? ws'.graph none n = Workspace.bindingSite? ws.graph none n :=
  bindingSite?_of_outline (h.map_node? fun _ _ => rfl) h.outline none n

theorem inScope (h : Resigned ws ws') (node : Node) :
    ws'.InScope n node A ↔ ws.InScope n node A := by
  rw [InScope, InScope, h.bindingSite?]
  refine forall_congr' fun site => ?_
  have hfield := h.field site.type site.branch site.field
  generalize ws.registry.fieldType? site.type site.branch site.field = found at hfield ⊢
  generalize ws'.registry.fieldType? site.type site.branch site.field = found' at hfield ⊢
  cases hfield with
  | none => simp
  | some hrel =>
    obtain ⟨f, hf, heq⟩ := hrel
    have hiff := IsCopy.instance_iff ⟨f, hf, heq.symm⟩ (A node.output)
    constructor
    · intro hscope t hsite ht
      cases ht
      exact hiff.mpr (hscope _ hsite rfl)
    · intro hscope t hsite ht
      cases ht
      exact hiff.mp (hscope _ hsite rfl)

theorem typing (h : Resigned ws ws') (K : NodeId → Prop) (A : Assignment) :
    ws'.Typing K A ↔ ws.Typing K A := by
  constructor
  · intro hA
    refine ⟨fun n node hK hn => ?_, fun a b n hw ha hK => ?_, fun n node hK hn => ?_⟩
    · obtain ⟨signature, hn', hrel⟩ := h.node n node hn
      exact (Node.fits_iff_of_renamesTo hrel).mp (hA.node n _ hK hn')
    · exact hA.wire a b n ((Graph.wired_congr h.outline).mpr hw)
        ((Graph.owner?_congr h.outline).trans ha) hK
    · obtain ⟨signature, hn', _⟩ := h.node n node hn
      have hscope := hA.scope n _ hK hn'
      exact (h.inScope node).mp hscope
  · intro hA
    refine ⟨fun n node' hK hn' => ?_, fun a b n hw ha hK => ?_, fun n node' hK hn' => ?_⟩
    · obtain ⟨node, signature, hn, rfl, hrel⟩ := h.node_back hn'
      exact (Node.fits_iff_of_renamesTo hrel).mpr (hA.node n node hK hn)
    · exact hA.wire a b n ((Graph.wired_congr h.outline).mp hw)
        ((Graph.owner?_congr h.outline).symm.trans ha) hK
    · obtain ⟨node, signature, hn, rfl, _⟩ := h.node_back hn'
      exact (h.inScope node).mpr (hA.scope n node hK hn)

theorem sameTypings (h : Resigned ws ws') : SameTypings ws ws' := by
  refine ⟨h.outline, fun n => ?_, h.typing⟩
  have huntyped := congrArg (Option.bind · id) (h.map_node? (f := Node.untyped) (fun _ _ => rfl) n)
  simpa only [Option.bind_map, Function.id_comp] using huntyped

end Resigned

theorem acyclic_of_valid (h : ws.graph.WellFormed) (hsettled : ws.Settled)
    (hvalid : ws.invalidSockets = []) : ws.graph.Acyclic := by
  intro n hcycle
  obtain ⟨c, ⟨s, _, _, hs, _⟩, _⟩ := Relation.TransGen.head'_iff.mp hcycle
  have hcoherent := (valid_of_invalidSockets h hvalid s).coherent h hsettled hs
  exact (Graph.not_cyclic_iff h).mpr hcoherent.ranked ⟨n, .refl _ n, hcycle⟩

/-- Two solved workspaces that differ in variables of signatures and fields differ in variables of
sockets, component by component. -/
theorem Resigned.exists_renaming (hr : Resigned ws ws') (h : ws.graph.WellFormed)
    (hsettled : ws.Settled) (hvalid : ws.invalidSockets = []) (hsettled' : ws'.Settled)
    (hstates : ∀ n node, ws'.graph.node? n = some node → ws'.Solvable n → ws'.StatesSettled n)
    {seed : SocketId} (hseed : ws.graph.owner? seed = some n) :
    ∃ π : Equiv.Perm TyVar, ∀ s ∈ (ws.graph.component [seed]).sockets, ∃ socket,
      ws.graph.socket? s = some socket ∧
        ws'.graph.socket? s = some { socket with ty := socket.ty.map π } := by
  have h' := (Graph.wellFormed_congr hr.outline).mpr h
  have hseed' : ws'.graph.owner? seed = some n := (Graph.owner?_congr hr.outline).trans hseed
  have hvalid := valid_of_invalidSockets h hvalid seed
  have hcoherent := hvalid.coherent h hsettled hseed
  have hsolvable := hcoherent.solvable.of_sameTypings hr.sameTypings
  obtain ⟨node', hn', _⟩ := Graph.owner?_node h' hseed'
  have hsettled₁ := hstates n node' hn' hsolvable
  exact hr.sameTypings.exists_renaming h hcoherent
    ((hsettled₁.valid h' hsolvable hseed').coherent h' hsettled' hseed')
    (hvalid.statesSettled h hcoherent hseed) hsettled₁ hseed

/-! ## Looking for signatures without moving inputs -/

/-- The signatures of some nodes have been looked for, and no input or name has changed. -/
structure Refitted (ws ws' : Workspace) (nodes : List NodeId) : Prop where
  registry : ws'.registry = ws.registry
  supply : ws.supply.next ≤ ws'.supply.next
  outline : ws'.graph.outline = ws.graph.outline
  other : ∀ n, n ∉ nodes → ws'.graph.node? n = ws.graph.node? n
  listed : ∀ n ∈ nodes, ∀ node, ws.graph.node? n = some node → ∃ signature untyped,
    ws'.graph.node? n = some { node with signature, untyped } ∧
      node.block.Finds ws.registry ws.supply signature untyped

theorem SameShape.refitted (h : SameShape ws ws') (hsupply : ws.supply.next ≤ ws'.supply.next) :
    Refitted ws ws' [] :=
  ⟨h.registry, hsupply, h.outline, fun n _ => h.node? n, fun _ hn => absurd hn List.not_mem_nil⟩

namespace Refitted

variable {ws₁ : Workspace} {nodes more : List NodeId}

theorem node_back (h : Refitted ws ws' nodes) (hn : ws'.graph.node? n = some node') :
    ∃ node signature untyped, ws.graph.node? n = some node ∧
      node' = { node with signature, untyped } := by
  by_cases hmem : n ∈ nodes
  · obtain ⟨node, hnode, _⟩ := Graph.node?_congr h.outline.symm hn
    obtain ⟨signature, untyped, hn', _⟩ := h.listed n hmem node hnode
    rw [hn] at hn'
    cases hn'
    exact ⟨node, signature, untyped, hnode, rfl⟩
  · exact ⟨node', node'.signature, node'.untyped, (h.other n hmem).symm.trans hn, rfl⟩

theorem trans (h : Refitted ws ws₁ nodes) (h' : Refitted ws₁ ws' more) :
    Refitted ws ws' (nodes ++ more) := by
  refine ⟨h'.registry.trans h.registry, Nat.le_trans h.supply h'.supply,
    h'.outline.trans h.outline, fun n hn => ?_, fun n hn node hnode => ?_⟩
  · rw [List.mem_append, not_or] at hn
    exact (h'.other n hn.2).trans (h.other n hn.1)
  · by_cases hmore : n ∈ more
    · -- What is found the second time counts, and it is found for the same block.
      obtain ⟨node₁, hnode₁, hblock, hrest⟩ : ∃ node₁, ws₁.graph.node? n = some node₁ ∧
          node₁.block = node.block ∧ ∀ signature untyped,
            { node₁ with signature, untyped } = { node with signature, untyped } := by
        by_cases hnodes : n ∈ nodes
        · obtain ⟨signature, untyped, hnode₁, _⟩ := h.listed n hnodes node hnode
          exact ⟨_, hnode₁, rfl, fun _ _ => rfl⟩
        · exact ⟨node, (h.other n hnodes).trans hnode, rfl, fun _ _ => rfl⟩
      obtain ⟨signature, untyped, hnode', hfinds⟩ := h'.listed n hmore node₁ hnode₁
      rw [h.registry, hblock] at hfinds
      rw [hrest] at hnode'
      exact ⟨signature, untyped, hnode', hfinds.mono h.supply⟩
    · obtain ⟨signature, untyped, hnode₁, hfinds⟩ :=
        h.listed n ((List.mem_append.mp hn).resolve_right hmore) node hnode
      exact ⟨signature, untyped, (h'.other n hmore).trans hnode₁, hfinds⟩

end Refitted

theorem resizeInputs_self (ws : Workspace) (n : NodeId) (count : Nat) :
    ws.resizeInputs n count count = ([], ws) := by
  rw [resizeInputs, Nat.sub_self]
  rfl

theorem install_refitted
    (hfits : ∀ node, ws.graph.node? n = some node → node.Fitting ws.registry ws.supply) :
    Refitted ws (ws.install n).2 [n] := by
  cases hn : ws.graph.node? n with
  | none =>
    rw [install, hn]
    refine ⟨rfl, Nat.le_refl _, rfl, fun _ _ => rfl, fun m hm node hnode => ?_⟩
    rw [List.mem_singleton.mp hm, hn] at hnode
    cases hnode
  | some node =>
    have hfit := hfits node hn
    obtain ⟨signature, untyped, supply, hinstall, hle, hfinds⟩ :
        ∃ signature untyped supply,
          ws.install n = ([], { ws with
            graph := ws.graph.modifyNode n fun node =>
              { node with signature, untyped, block := node.block.syncBinders ws.registry }
            supply }) ∧
          ws.supply.next ≤ supply.next ∧
          node.block.Finds ws.registry ws.supply signature untyped := by
      cases hderive : node.block.derive ws.registry ws.supply with
      | ok found =>
        obtain ⟨signature, supply⟩ := found
        refine ⟨signature, none, supply, ?_, (Block.derive_spec hderive).1, ws.supply,
          Nat.le_refl _, .inl ⟨supply, hderive, rfl⟩⟩
        simp only [install, hn, hderive, hfit.inputs _ _ _ (Nat.le_refl _) hderive,
          resizeInputs_self]
      | error fault =>
        refine ⟨none, some (.invalidSignature fault), ws.supply, ?_, Nat.le_refl _, ws.supply,
          Nat.le_refl _, .inr ⟨fault, hderive, rfl, rfl⟩⟩
        simp only [install, hn, hderive, resizeInputs_self]
    rw [hinstall]
    refine ⟨rfl, hle, Graph.outline_modifyNode _ _ fun _ => rfl, fun m hm => ?_,
      fun m hm found hfound => ?_⟩
    · have hne : m ≠ n := fun he => hm (List.mem_singleton.mpr he)
      exact (Graph.node?_modifyNode hn _ m).trans (if_neg hne)
    · obtain rfl := List.mem_singleton.mp hm
      rw [hn] at hfound
      cases hfound
      refine ⟨signature, untyped, (Graph.node?_modifyNode hn _ m).trans ?_, hfinds⟩
      rw [if_pos rfl, hfit.names]

theorem installAll_refitted {nodes : List NodeId}
    (hfits : ∀ n ∈ nodes, ∀ node, ws.graph.node? n = some node →
      node.Fitting ws.registry ws.supply) : Refitted ws (ws.installAll nodes).2 nodes := by
  induction nodes generalizing ws with
  | nil => exact (SameShape.refl ws).refitted (Nat.le_refl _)
  | cons n rest ih =>
    have hfirst : Refitted ws (ws.install n).2 [n] := install_refitted (hfits n List.mem_cons_self)
    refine hfirst.trans (ih fun m hm node' hnode' => ?_)
    obtain ⟨node, signature, untyped, hnode, rfl⟩ := hfirst.node_back hnode'
    rw [hfirst.registry]
    exact (hfits m (List.mem_cons_of_mem n hm) node hnode).mono hfirst.supply signature untyped

theorem rebuild_refitted (h : ws.graph.WellFormed) {nodes : List NodeId}
    (hfits : ∀ n ∈ nodes, ∀ node, ws.graph.node? n = some node →
      node.Fitting ws.registry ws.supply) : Refitted ws (ws.rebuild nodes).2 nodes := by
  have hinstalled := installAll_refitted hfits
  have hgraph := (Graph.wellFormed_congr hinstalled.outline).mpr h
  have hshape := (recompute_redrawn hgraph (ws.installAll nodes).1).sameShape
  have hrest := hshape.refitted (recompute_revised _ _).supply
  have hall := hinstalled.trans hrest
  rwa [List.append_nil] at hall

end Workspace
end BlockGraph
