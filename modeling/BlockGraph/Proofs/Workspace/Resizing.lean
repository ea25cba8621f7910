import BlockGraph.Proofs.Workspace.FieldNames
import BlockGraph.Proofs.Workspace.Growth

/-!
# Inputs follow signatures

When a signature is found again, the node gets inputs at the end or loses them there.  A lost input
takes its link with it, and its number may go to an input of the next node in the same
edit.  All other links stay, and a node whose signature is not found keeps the inputs that
it has.

`Resized` says this of a search for the signatures of a list of nodes.  Numbers that go from
one node to another do no harm, because what is lost is said in terms of the inputs that nodes
had before the search, and each of the nodes is looked at once.
-/

namespace BlockGraph

namespace Graph

variable {g g' g₁ : Graph} {n : NodeId} {node : Node} {count : Nat}

/-! ## Inputs of one node -/

/-- The inputs before the lost ones stay, and so do their links. -/
theorem popInputs_keeps (h : g.WellFormed) (hn : g.node? n = some node)
    (hcount : count ≤ node.inputs.length) :
    (g.popInputs n count).2.node? n =
        some { node with inputs := node.inputs.take (node.inputs.length - count) } ∧
      ∀ a b, (g.popInputs n count).2.Wired a b ↔
        g.Wired a b ∧ b ∉ node.inputs.drop (node.inputs.length - count) := by
  induction count generalizing g node with
  | zero => exact ⟨by simpa [popInputs] using hn, fun a b => by simp [popInputs]⟩
  | succ count ih =>
    obtain ⟨s, hs⟩ : ∃ s, node.inputs.getLast? = some s :=
      ⟨_, List.getLast?_eq_some_getLast (List.ne_nil_of_length_pos (Nat.lt_of_lt_of_le
        (Nat.succ_pos _) hcount))⟩
    obtain ⟨init, hinputs⟩ := List.getLast?_eq_some_iff.mp hs
    obtain ⟨g₁, hpop, hwf, hnode, _, hwired⟩ := popInput_spec h hn hs
    obtain ⟨k, hk⟩ := (mem_inputs_iff h hn).mp (List.mem_of_getLast? hs)
    simp only [hinputs, List.dropLast_concat, List.length_append, List.length_singleton]
      at hnode hcount ⊢
    obtain ⟨hnode', hwired'⟩ :=
      ih hwf ((hnode n).trans (if_pos rfl)) (Nat.le_of_succ_le_succ hcount)
    have heq : (g.popInputs n (count + 1)).2 = (g₁.popInputs n count).2 := by
      rw [popInputs, hpop]
    have hle : init.length - count ≤ init.length := Nat.sub_le _ _
    rw [heq, Nat.add_sub_add_right, List.take_append_of_le_length hle,
      List.drop_append_of_le_length hle]
    refine ⟨hnode', fun a b => ?_⟩
    rw [hwired', hwired, List.mem_append, List.mem_singleton, not_or, and_assoc]
    refine and_congr_right fun hw => ?_
    -- The output at the other end is not the input that goes.
    have ha : a ≠ s := by
      rintro rfl
      exact not_wired_input h hk hw
    rw [and_assoc, and_iff_right ha, and_comm]

theorem addInputs_keeps (h : g.WellFormed) (hn : g.node? n = some node) (count : Nat) (s : Supply) :
    (∃ added, (g.addInputs n count s).1.node? n =
        some { node with inputs := node.inputs ++ added } ∧ added.length = count) ∧
      (g.addInputs n count s).1.links = g.links := by
  induction count generalizing g node s with
  | zero => exact ⟨⟨[], by simpa [addInputs] using hn, rfl⟩, rfl⟩
  | succ count ih =>
    obtain ⟨x, g₁, hadd, hwf, _, hlinks, hnode, _⟩ := addInput_spec h hn s.fresh.1
    obtain ⟨⟨added, hnode', hlen⟩, hlinks'⟩ := ih hwf ((hnode n).trans (if_pos rfl)) s.fresh.2
    have heq : g.addInputs n (count + 1) s = g₁.addInputs n count s.fresh.2 := by
      rw [addInputs]
      simp only [hadd]
    rw [heq]
    refine ⟨⟨x :: added, ?_, by rw [List.length_cons, hlen]⟩, hlinks'.trans hlinks⟩
    rw [hnode', List.append_assoc]
    rfl

theorem nodeIds_popInputs (g : Graph) (n : NodeId) (count : Nat) :
    (g.popInputs n count).2.nodeIds = g.nodeIds := by
  induction count generalizing g with
  | zero => rfl
  | succ count ih =>
    rw [popInputs]
    split
    · next s peer g₁ hpop =>
      rw [popInput] at hpop
      split at hpop
      · cases hpop
      · split at hpop
        · cases hpop
        · cases hpop
          exact (ih _).trans (Slots.keys_modify ..)
    · rfl

theorem nodeIds_addInputs (g : Graph) (n : NodeId) (count : Nat) (s : Supply) :
    (g.addInputs n count s).1.nodeIds = g.nodeIds := by
  induction count generalizing g s with
  | zero => rfl
  | succ count ih =>
    simp only [addInputs]
    split
    · next x g₁ hadd =>
      rw [addInput] at hadd
      split at hadd
      · cases hadd
      · cases hadd
        exact (ih _ _).trans (Slots.keys_modify ..)
    · rfl

/-- The inputs that a node had and has no more. -/
def Drops (g g' : Graph) (s : SocketId) : Prop :=
  ∃ n node node', g.node? n = some node ∧ g'.node? n = some node' ∧
    s ∈ node.inputs.drop node'.inputs.length

theorem not_drops_self (g : Graph) (s : SocketId) : ¬ Drops g g s := by
  rintro ⟨n, node, node', hn, hn', hmem⟩
  cases hn.symm.trans hn'
  rw [List.drop_length] at hmem
  exact List.not_mem_nil hmem

/-- What is lost in one of two steps is lost, if no node changes in both. -/
theorem drops_trans (h : ∀ n, g₁.node? n = g.node? n ∨ g'.node? n = g₁.node? n) (s : SocketId) :
    Drops g g' s ↔ Drops g g₁ s ∨ Drops g₁ g' s := by
  constructor
  · rintro ⟨n, node, node', hn, hn', hmem⟩
    rcases h n with heq | heq
    · exact .inr ⟨n, node, node', heq.trans hn, hn', hmem⟩
    · exact .inl ⟨n, node, node', hn, heq.symm.trans hn', hmem⟩
  · rintro (⟨n, node, node', hn, hn', hmem⟩ | ⟨n, node, node', hn, hn', hmem⟩)
    · rcases h n with heq | heq
      · cases hn.symm.trans (heq.symm.trans hn')
        rw [List.drop_length] at hmem
        exact absurd hmem List.not_mem_nil
      · exact ⟨n, node, node', hn, heq.trans hn', hmem⟩
    · rcases h n with heq | heq
      · exact ⟨n, node, node', heq.symm.trans hn, hn', hmem⟩
      · cases hn.symm.trans (heq.symm.trans hn')
        rw [List.drop_length] at hmem
        exact absurd hmem List.not_mem_nil

theorem drops_of_outline (h : g₁.outline = g.outline) {s : SocketId} (hdrops : Drops g₁ g' s) :
    Drops g g' s := by
  obtain ⟨n, node₁, node', hn, hn', hmem⟩ := hdrops
  obtain ⟨node, hnode, hbare⟩ := node?_congr h.symm hn
  have hinputs : node.inputs = node₁.inputs :=
    show node.bare.inputs = node₁.bare.inputs by rw [hbare]
  exact ⟨n, node, node', hnode, hn', hinputs ▸ hmem⟩

/-- An input that a node still has is not lost, whatever becomes of other nodes. -/
theorem not_drops_of_mem_take (h : g.WellFormed) (hn : g.node? n = some node) {node' : Node}
    (hn' : g'.node? n = some node') {s : SocketId}
    (hs : s ∈ node.inputs.take node'.inputs.length) : ¬ Drops g g' s := by
  rintro ⟨m, other, other', hm, hm', hmem⟩
  obtain ⟨j, hj⟩ := (mem_inputs_iff h hn).mp (List.mem_of_mem_take hs)
  obtain ⟨k, hk⟩ := (mem_inputs_iff h hm).mp (List.mem_of_mem_drop hmem)
  obtain ⟨rfl, _⟩ := hj.unique hk
  cases hn.symm.trans hm
  cases hn'.symm.trans hm'
  have hnodup : node.inputs.Nodup := (sockets_nodup h hn).of_append_left
  exact List.disjoint_take_drop hnodup (Nat.le_refl _) hs hmem

end Graph

/-- The signature of a node has been looked for.  The node has lost inputs at the end or got some
there, or it has no signature and the inputs that it had. -/
structure Node.Follows (r : Registry) (s : Supply) (node node' : Node) : Prop where
  installed : node.Installed r s node'
  inputs : node'.inputs.take node.inputs.length = node.inputs.take node'.inputs.length
  untyped : node'.untyped.isSome = true → node'.inputs = node.inputs

namespace Workspace

variable {ws ws' ws₁ : Workspace} {n : NodeId} {node : Node} {nodes : List NodeId} {name : String}
  {action : Action}

/-! ## A search for signatures -/

theorem resizeInputs_keeps (h : ws.graph.WellFormed) (hn : ws.graph.node? n = some node)
    (count : Nat) :
    ∃ inputs, (ws.resizeInputs n node.inputs.length count).2.graph.node? n =
        some { node with inputs } ∧
      inputs.length = count ∧ inputs.take node.inputs.length = node.inputs.take count ∧
      ∀ a b, (ws.resizeInputs n node.inputs.length count).2.graph.Wired a b ↔
        ws.graph.Wired a b ∧ b ∉ node.inputs.drop count := by
  have hless := Nat.sub_le node.inputs.length count
  obtain ⟨hpop, _⟩ := Graph.popInputs_onlyAt h hn hless
  obtain ⟨hnode, hwired⟩ := Graph.popInputs_keeps h hn hless
  obtain ⟨⟨added, hnode', hlen⟩, hlinks⟩ :=
    Graph.addInputs_keeps hpop.wellFormed hnode (count - node.inputs.length) ws.supply
  refine ⟨_, hnode', ?_, ?_, fun a b => ?_⟩
  · rw [List.length_append, List.length_take, hlen]
    omega
  · rcases Nat.le_total count node.inputs.length with hle | hle
    · have hnone : added = [] := List.length_eq_zero_iff.mp (by omega)
      rw [hnone, List.append_nil, List.take_take, Nat.sub_sub_self hle, Nat.min_eq_right hle]
    · rw [Nat.sub_eq_zero_of_le hle, Nat.sub_zero, List.take_length, List.take_left,
        List.take_of_length_le hle]
  · rw [Graph.Wired, resizeInputs, hlinks]
    refine (hwired a b).trans ?_
    rcases Nat.le_total count node.inputs.length with hle | hle
    · rw [Nat.sub_sub_self hle]
    · rw [Nat.sub_eq_zero_of_le hle, Nat.sub_zero, List.drop_length, List.drop_eq_nil_of_le hle]

theorem install_follows (h : ws.graph.WellFormed) (hn : ws.graph.node? n = some node) :
    ∃ node', (ws.install n).2.graph.node? n = some node' ∧
      node.Follows ws.registry ws.supply node' ∧
      ∀ a b, (ws.install n).2.graph.Wired a b ↔
        ws.graph.Wired a b ∧ b ∉ node.inputs.drop node'.inputs.length := by
  -- What is found is put into the node first, and then its inputs follow.
  have hfit : ∀ (f : Node → Node) (supply : Supply) (count : Nat),
      (∀ node, (f node).bare = node.bare) →
      ws.install n = { ws with graph := ws.graph.modifyNode n f, supply }.resizeInputs n
        node.inputs.length count →
      (∀ inputs, inputs.length = count →
        node.Installed ws.registry ws.supply { f node with inputs }) →
      ((f node).untyped.isSome = true → count = node.inputs.length) →
      ∃ node', (ws.install n).2.graph.node? n = some node' ∧
        node.Follows ws.registry ws.supply node' ∧
        ∀ a b, (ws.install n).2.graph.Wired a b ↔
          ws.graph.Wired a b ∧ b ∉ node.inputs.drop node'.inputs.length := by
    intro f supply count hbare hinstall hinst huntyped
    have hnode : (ws.graph.modifyNode n f).node? n = some (f node) := by
      rw [Graph.node?_modifyNode hn, if_pos rfl]
    have hinputs : (f node).inputs = node.inputs :=
      show (f node).bare.inputs = node.bare.inputs by rw [hbare]
    obtain ⟨inputs, hnode', hlen, htake, hwired⟩ :=
      @resizeInputs_keeps { ws with graph := ws.graph.modifyNode n f, supply } n (f node)
        (Graph.modifyNode_onlyAt h n hbare).wellFormed hnode count
    rw [hinputs, ← hinstall] at hnode' hwired
    rw [hinputs] at htake
    rw [← hlen] at htake hwired
    refine ⟨_, hnode', ⟨hinst inputs hlen, htake, fun hsome => ?_⟩, hwired⟩
    have hsame := huntyped hsome
    rw [hlen, hsame, List.take_length] at htake
    rwa [List.take_of_length_le (Nat.le_of_eq (hlen.trans hsame))] at htake
  cases hderive : node.block.derive ws.registry ws.supply with
  | ok result =>
    obtain ⟨signature, supply⟩ := result
    refine hfit (fun node =>
      { node with signature, untyped := none, block := node.block.syncBinders ws.registry }) supply
      ((signature.map TyTerm.arity).getD 0) (fun _ => rfl) (by simp only [install, hn, hderive])
      (fun inputs hinputs => .found hderive hinputs) fun hsome => ?_
    cases hsome
  | error fault =>
    exact hfit (fun node =>
      { node with
        signature := none
        untyped := some (.invalidSignature fault)
        block := node.block.syncBinders ws.registry }) ws.supply node.inputs.length (fun _ => rfl)
      (by simp only [install, hn, hderive]) (fun inputs _ => .missing hderive) fun _ => rfl

/-- The signatures of the nodes of a list have been looked for, and their inputs follow. -/
structure Resized (ws ws' : Workspace) (nodes : List NodeId) : Prop where
  registry : ws'.registry = ws.registry
  nodeIds : ws'.graph.nodeIds = ws.graph.nodeIds
  other : ∀ n, n ∉ nodes → ws'.graph.node? n = ws.graph.node? n
  listed : ∀ n ∈ nodes, ∀ node, ws.graph.node? n = some node → ∃ s node',
    ws'.graph.node? n = some node' ∧ node.Follows ws.registry s node'
  wired : ∀ a b, ws'.graph.Wired a b ↔
    ws.graph.Wired a b ∧ ¬ Graph.Drops ws.graph ws'.graph b

theorem install_nodeIds (ws : Workspace) (n : NodeId) :
    (ws.install n).2.graph.nodeIds = ws.graph.nodeIds := by
  rw [install]
  split
  · rfl
  · exact ((Graph.nodeIds_addInputs ..).trans (Graph.nodeIds_popInputs ..)).trans
      (Slots.keys_modify ..)

namespace Resized

theorem absent (h : Resized ws ws' nodes) (hn : ws.graph.node? n = none) :
    ws'.graph.node? n = none := by
  refine Option.eq_none_iff_forall_ne_some.mpr fun node hnode => ?_
  have hmem := Graph.mem_nodeIds.mpr ⟨node, hnode⟩
  rw [h.nodeIds] at hmem
  obtain ⟨node', hnode'⟩ := Graph.mem_nodeIds.mp hmem
  cases hn.symm.trans hnode'

theorem refl (ws : Workspace) : Resized ws ws [] := by
  refine ⟨rfl, rfl, fun _ _ => rfl, fun _ hn => absurd hn List.not_mem_nil, fun a b => ?_⟩
  exact (and_iff_left (Graph.not_drops_self ws.graph b)).symm

theorem trans_sameShape (h : Resized ws ws₁ nodes) (h' : SameShape ws₁ ws') :
    Resized ws ws' nodes := by
  refine ⟨h'.registry.trans h.registry, (congrArg Slots.keys h'.nodes).trans h.nodeIds,
    fun n hn => (h'.node? n).trans (h.other n hn), fun n hn node hnode => ?_, fun a b => ?_⟩
  · obtain ⟨s, node', hnode', hfollows⟩ := h.listed n hn node hnode
    exact ⟨s, node', (h'.node? n).trans hnode', hfollows⟩
  · rw [Graph.wired_congr h'.outline, h.wired]
    simp only [Graph.Drops, h'.node?]

theorem follows (h : Resized ws ws' nodes) (hn : ws.graph.node? n = some node) :
    ∃ node', ws'.graph.node? n = some node' ∧ node'.output = node.output ∧
      node'.inputs.take node.inputs.length = node.inputs.take node'.inputs.length ∧
      (node'.untyped.isSome = true → node'.inputs = node.inputs) := by
  by_cases hmem : n ∈ nodes
  · obtain ⟨_, node', hnode', hfollows⟩ := h.listed n hmem node hn
    refine ⟨node', hnode', ?_, hfollows.inputs, hfollows.untyped⟩
    cases hfollows.installed <;> rfl
  · exact ⟨node, (h.other n hmem).trans hn, rfl, rfl, fun _ => rfl⟩

/-- Two searches for different nodes are one. -/
theorem trans {more : List NodeId} (h : Resized ws ws₁ nodes) (h' : Resized ws₁ ws' more)
    (hdisjoint : ∀ n ∈ nodes, n ∉ more) : Resized ws ws' (nodes ++ more) := by
  refine ⟨h'.registry.trans h.registry, h'.nodeIds.trans h.nodeIds, fun n hn => ?_,
    fun n hn node hnode => ?_, fun a b => ?_⟩
  · rw [List.mem_append, not_or] at hn
    rw [h'.other n hn.2, h.other n hn.1]
  · by_cases hmem : n ∈ nodes
    · rw [h'.other n (hdisjoint n hmem)]
      exact h.listed n hmem node hnode
    · have hmore := (List.mem_append.mp hn).resolve_left hmem
      rw [← h.registry]
      exact h'.listed n hmore node ((h.other n hmem).trans hnode)
  · have hone : ∀ n, ws₁.graph.node? n = ws.graph.node? n ∨
        ws'.graph.node? n = ws₁.graph.node? n := by
      intro n
      by_cases hmem : n ∈ nodes
      · exact .inr (h'.other n (hdisjoint n hmem))
      · exact .inl (h.other n hmem)
    rw [h'.wired, h.wired, Graph.drops_trans hone, not_or, and_assoc]

end Resized

theorem install_resized (h : ws.graph.WellFormed) (hbelow : Below ws.graph ws.supply)
    (n : NodeId) : Resized ws (ws.install n).2 [n] := by
  cases hn : ws.graph.node? n with
  | none =>
    rw [install, hn]
    refine ⟨rfl, rfl, fun _ _ => rfl, fun m hm node hnode => ?_, (Resized.refl ws).wired⟩
    rw [List.mem_singleton.mp hm, hn] at hnode
    cases hnode
  | some node =>
    obtain ⟨displaced, graph, supply, hinstall, honly, _⟩ := install_spec h hn hbelow
    obtain ⟨node', hnode', hfollows, hwired⟩ := install_follows h hn
    have hnodeIds := ws.install_nodeIds n
    rw [hinstall] at hnode' hwired hnodeIds ⊢
    refine ⟨rfl, hnodeIds, fun m hm => honly.node m fun he => hm (List.mem_singleton.mpr he),
      fun m hm found hfound => ?_, fun a b => (hwired a b).trans (and_congr_right fun _ => ?_)⟩
    · rw [List.mem_singleton.mp hm] at hfound ⊢
      cases hn.symm.trans hfound
      exact ⟨_, node', hnode', hfollows⟩
    · -- Only the inputs of the node itself can be lost.
      constructor
      · rintro hmem ⟨m, found, found', hfound, hfound', hdrop⟩
        by_cases hm : m = n
        · subst hm
          cases hn.symm.trans hfound
          cases hnode'.symm.trans hfound'
          exact hmem hdrop
        · rw [honly.node m hm] at hfound'
          exact Graph.not_drops_self ws.graph b ⟨m, found, found', hfound, hfound', hdrop⟩
      · exact fun hdrops hmem => hdrops ⟨n, node, node', hn, hnode', hmem⟩

theorem installAll_resized (h : ws.graph.WellFormed) (hbelow : Below ws.graph ws.supply)
    (hnodup : nodes.Nodup) : Resized ws (ws.installAll nodes).2 nodes := by
  induction nodes generalizing ws with
  | nil => exact .refl ws
  | cons n rest ih =>
    obtain ⟨hn, hrest⟩ := List.nodup_cons.mp hnodup
    have hwf := install_wellFormed h hbelow n
    have hfirst := install_resized h hbelow n
    refine hfirst.trans (ih hwf (install_below h hbelow n) hrest) fun m hm => ?_
    rwa [List.mem_singleton.mp hm]

theorem nodesWhere_nodup (h : ws.graph.WellFormed) (p : Node → Bool) : (ws.nodesWhere p).Nodup :=
  h.nodes.used_nodup.sublist (List.filter_sublist.map Prod.fst)

theorem rebuild_resized (h : ws.graph.WellFormed) (hbelow : Below ws.graph ws.supply)
    (hnodup : nodes.Nodup) : Resized ws (ws.rebuild nodes).2 nodes := by
  obtain ⟨seeds, graph, supply, hinstall, ⟨_, honly, _⟩, _⟩ := installAll_spec h hbelow nodes
  have hresized := installAll_resized h hbelow hnodup
  rw [rebuild, hinstall]
  rw [hinstall] at hresized
  exact hresized.trans_sameShape (recompute_redrawn honly.wellFormed seeds).sameShape

/-! ## Edits -/

/-- The names that the branches of a node give to fields, if it distinguishes cases. -/
def binders? (ws : Workspace) (n : NodeId) : Option (List (List String)) :=
  (ws.cases? n).map Prod.snd

/-- Nodes get other names in their blocks, but fields keep theirs. -/
theorem binders?_of_map {F : Node → Node}
    (hnode : ∀ n, ws'.graph.node? n = (ws.graph.node? n).map F)
    (hF : ∀ node, (F node).block.cases?.map Prod.snd = node.block.cases?.map Prod.snd)
    (n : NodeId) : ws'.binders? n = ws.binders? n := by
  rw [binders?, cases?, hnode, binders?, cases?]
  cases ws.graph.node? n with
  | none => rfl
  | some node => exact hF node

theorem Action.Redefines.nodup {registry : Registry} {supply : Supply}
    (hd : action.Redefines ws registry supply nodes) (h : ws.graph.WellFormed) : nodes.Nodup := by
  cases hd with
  | deleteType _ => exact h.nodes.used_nodup.filter _
  | _ => exact nodesWhere_nodup h _

/-- The registry is another one, or there are other names in blocks, and then the signatures of some
nodes have been looked for.  The names of fields are not among those names. -/
def Adjusted (ws ws' : Workspace) : Prop :=
  ∃ ws₀ nodes, ws₀.graph.outline = ws.graph.outline ∧ (∀ n, ws₀.binders? n = ws.binders? n) ∧
    Resized ws₀ ws' nodes

theorem rebuild_adjusted (h : ws.Sound) (registry : Registry) {supply : Supply}
    (hsupply : ws.supply.next ≤ supply.next) (hnodup : nodes.Nodup) :
    Adjusted ws ({ ws with registry, supply }.rebuild nodes).2 := by
  let ws₀ : Workspace := { ws with registry, supply }
  have hbelow : Below ws₀.graph ws₀.supply := fun s socket hs v hv =>
    Nat.lt_of_lt_of_le (h.below s socket hs v hv) hsupply
  exact ⟨ws₀, nodes, rfl, fun _ => rfl, rebuild_resized h.graph hbelow hnodup⟩

theorem setArity_adjusted (h : ws.Sound) {items : Nat} {errors : List TypeError}
    (hok : setArity n items ws = .ok errors ws') : Adjusted ws ws' := by
  rw [setArity] at hok
  split at hok
  · cases hok
  next node hn =>
  split at hok
  · next hblock =>
    cases hok
    let f : Node → Node := fun node => { node with block := .list items }
    let ws₀ : Workspace := { ws with graph := ws.graph.modifyNode n f }
    have hwf : ws₀.graph.WellFormed :=
      (Graph.modifyNode_onlyAt (f := f) h.graph n fun _ => rfl).wellFormed
    refine ⟨ws₀, [n], Graph.outline_modifyNode ws.graph n fun _ => rfl, fun m => ?_,
      (install_resized hwf h.below n).trans_sameShape
        (recompute_redrawn (install_wellFormed hwf h.below n) _).sameShape⟩
    rw [binders?, cases?, Graph.node?_modifyNode hn]
    by_cases hm : m = n
    · rw [if_pos hm, hm, binders?, cases?, hn, Option.bind_some, Option.bind_some, hblock]
      rfl
    · rw [if_neg hm]
      rfl
  · cases hok

theorem renameType_adjusted (h : ws.Sound) {old new candidate : String}
    (hok : renameType old candidate ws = .ok new ws') : Adjusted ws ws' := by
  rcases renameType_ok h.graph hok with ⟨_, rfl⟩ | ⟨registry, _, _, hr, rfl⟩
  · exact ⟨ws', [], rfl, fun _ => rfl, .refl ws'⟩
  · have hsound := hr.sound_workspace h
    refine ⟨_, _, hr.outline, binders?_of_map hr.node fun node => ?_,
      rebuild_resized hsound.graph hsound.below (nodesWhere_nodup hsound.graph _)⟩
    cases hblock : node.block <;> simp [Node.renameType, Block.renameType, Block.cases?, hblock]

theorem renameCtor_adjusted {old new candidate : String}
    (hok : renameCtor old candidate ws = .ok new ws') : Adjusted ws ws' := by
  have hr := renameCtor_ok hok
  refine ⟨_, [], hr.outline, binders?_of_map hr.node fun node => ?_, .refl _⟩
  cases hblock : node.block <;> simp [Node.renameCtor, Block.renameCtor, Block.cases?, hblock]

theorem renameBinder_resized (h : ws.Sound) {branch field : Nat} {given : String}
    (hok : renameBinder n branch field name ws = .ok given ws') :
    ∃ ws₀, ws₀.graph.outline = ws.graph.outline ∧ Resized ws₀ ws' [] := by
  obtain ⟨node, type, binders, names, _, _, _, rfl⟩ := renameBinder_eq hok
  let f : Node → Node := fun node =>
    { node with block := .caseOf type (binders.set branch (names.set field name)) }
  let ws₀ : Workspace := { ws with graph := ws.graph.modifyNode n f }
  have hwf : ws₀.graph.WellFormed :=
    (Graph.modifyNode_onlyAt (f := f) h.graph n fun _ => rfl).wellFormed
  exact ⟨ws₀, Graph.outline_modifyNode ws.graph n fun _ => rfl,
    (Resized.refl ws₀).trans_sameShape (recompute_redrawn hwf _).sameShape⟩

/-- The edits after which the inputs of nodes follow their signatures. -/
def Action.adjusts : Action → Bool
  | .setArity .. | .defineType .. | .defineFunction .. | .renameType .. | .renameCtor ..
  | .deleteType .. | .setVariantCount .. | .setFieldCount .. | .setFieldType .. => true
  | _ => false

theorem Action.run_adjusted (h : ws.Sound) (hadjusts : action.adjusts = true)
    (hrun : action.run ws = some ws') : Adjusted ws ws' := by
  by_cases hredefines : action.redefines = true
  · obtain ⟨registry, _, _, hd, rfl⟩ := action.run_redefines hredefines hrun
    exact rebuild_adjusted h registry hd.supply_le (hd.nodup h.graph)
  cases action with
  | setArity n items =>
    obtain ⟨_, hok⟩ := after?_eq_some hrun
    exact setArity_adjusted h hok
  | renameType old candidate =>
    obtain ⟨_, hok⟩ := after?_eq_some hrun
    exact renameType_adjusted h hok
  | renameCtor old candidate =>
    obtain ⟨_, hok⟩ := after?_eq_some hrun
    exact renameCtor_adjusted hok
  | _ => first | exact absurd rfl hredefines | cases hadjusts

/-- The edits that find signatures again, and the one that gives a field another name. -/
def Action.resizes : Action → Bool
  | .renameBinder .. => true
  | action => action.adjusts

theorem Action.run_resized (h : ws.Sound) (hresizes : action.resizes = true)
    (hrun : action.run ws = some ws') :
    ∃ ws₀ nodes, ws₀.graph.outline = ws.graph.outline ∧ Resized ws₀ ws' nodes := by
  by_cases hadjusts : action.adjusts = true
  · obtain ⟨ws₀, nodes, houtline, _, hresized⟩ := action.run_adjusted h hadjusts hrun
    exact ⟨ws₀, nodes, houtline, hresized⟩
  · cases action with
    | renameBinder n branch field name =>
      obtain ⟨_, hok⟩ := after?_eq_some hrun
      obtain ⟨ws₀, houtline, hresized⟩ := renameBinder_resized h hok
      exact ⟨ws₀, [], houtline, hresized⟩
    | _ => exact absurd hresizes hadjusts

/-- Nodes stay with their outputs.  A node that has as many inputs as before or more has those that
it had, one that has fewer has the first of them, and they are linked to what they were linked to.
Links are lost only with the inputs that they lead to, and a node without a signature has lost no
input. -/
theorem links_after_resizing (h : ws.Visited) {action : Action} (hresizes : action.resizes = true)
    (hrun : action.run ws = some ws') :
    (∀ n, (ws'.graph.node? n).map Node.output = (ws.graph.node? n).map Node.output) ∧
      (∀ n node node', ws.graph.node? n = some node → ws'.graph.node? n = some node' →
        node'.inputs.take node.inputs.length = node.inputs.take node'.inputs.length ∧
        (∀ s ∈ node.inputs.take node'.inputs.length, ws'.graph.peer? s = ws.graph.peer? s) ∧
        (node'.untyped.isSome = true → node'.inputs = node.inputs)) ∧
      ∀ l, l ∈ ws'.graph.wires ↔ l ∈ ws.graph.wires ∧ ¬ ws.graph.Drops ws'.graph l.input := by
  have hgraph := h.sound.graph
  have hgraph' := (h.done ((Action.run_eq_some_iff _ _).mp hrun)).sound.graph
  obtain ⟨ws₀, nodes, houtline, hresized⟩ := action.run_resized h.sound hresizes hrun
  have hfollows : ∀ n node, ws.graph.node? n = some node → ∃ node',
      ws'.graph.node? n = some node' ∧ node'.output = node.output ∧
      node'.inputs.take node.inputs.length = node.inputs.take node'.inputs.length ∧
      (node'.untyped.isSome = true → node'.inputs = node.inputs) := by
    intro n node hn
    obtain ⟨node₀, hn₀, hbare⟩ := Graph.node?_congr houtline hn
    have hinputs : node₀.inputs = node.inputs :=
      show node₀.bare.inputs = node.bare.inputs by rw [hbare]
    have houtput : node₀.output = node.output :=
      show node₀.bare.output = node.bare.output by rw [hbare]
    have hfollows := hresized.follows hn₀
    rwa [hinputs, houtput] at hfollows
  have hwired : ∀ a b, ws'.graph.Wired a b ↔
      ws.graph.Wired a b ∧ ¬ ws.graph.Drops ws'.graph b := by
    intro a b
    rw [hresized.wired, Graph.wired_congr houtline]
    exact and_congr_right fun _ => not_congr
      ⟨Graph.drops_of_outline houtline, Graph.drops_of_outline houtline.symm⟩
  refine ⟨fun n => ?_, fun n node node' hn hn' => ?_, fun l => ?_⟩
  · cases hn : ws.graph.node? n with
    | some node =>
      obtain ⟨node', hn', houtput, _⟩ := hfollows n node hn
      rw [hn', Option.map_some, Option.map_some, houtput]
    | none =>
      have hn₀ : ws₀.graph.node? n = none := by
        refine Option.eq_none_iff_forall_ne_some.mpr fun node₀ hn₀ => ?_
        obtain ⟨node, hnode, _⟩ := Graph.node?_congr houtline.symm hn₀
        cases hn.symm.trans hnode
      rw [hresized.absent hn₀]
  · obtain ⟨found, hfound, _, htake, huntyped⟩ := hfollows n node hn
    cases hn'.symm.trans hfound
    refine ⟨htake, fun s hs => ?_, huntyped⟩
    obtain ⟨k, hk⟩ := (Graph.mem_inputs_iff hgraph hn).mp (List.mem_of_mem_take hs)
    have hkept := Graph.not_drops_of_mem_take hgraph hn hn' hs
    refine Graph.peer?_congr hgraph.links hgraph'.links fun t => or_congr ?_ ?_
    · -- Nothing leads away from an input.
      rw [hwired]
      exact and_iff_left_of_imp fun hw => absurd hw (Graph.not_wired_input hgraph hk)
    · rw [hwired, and_iff_left hkept]
  · rw [Graph.mem_wires hgraph', Graph.mem_wires hgraph, hwired]

/-- A distinction of two cases of a switch.  The value and the result in the second case are
constructors of the switch. -/
def flipped : List Action :=
  [.defineType "Switch" [⟨"Off", []⟩, ⟨"On", []⟩], .addNode (.ctor "Off"), .addNode (.ctor "On"),
    .addNode (.caseOf "Switch" []), .connect 0 3, .connect 1 5]

/-- When the switch loses its second variant, the distinction of cases loses its last input and the
link into it.  The constructor at the other end has no signature any more. -/
theorem links_after_resizing_flipped :
    ∃ ws ws' : Workspace, empty.runAll flipped = some ws ∧
      (Action.setVariantCount "Switch" 1).run ws = some ws' ∧
      ws.Visited ∧ (Action.setVariantCount "Switch" 1).resizes = true ∧
      ws.graph.wires = [⟨0, 3⟩, ⟨1, 5⟩] ∧ ws'.graph.wires = [⟨0, 3⟩] ∧
      (∃ node node', ws.graph.node? 2 = some node ∧ ws'.graph.node? 2 = some node' ∧
        node.inputs = [3, 4, 5] ∧ node'.inputs = [3, 4] ∧ ws'.graph.peer? 3 = ws.graph.peer? 3) ∧
      (∃ node', ws'.graph.node? 1 = some node' ∧ node'.untyped.isSome = true) ∧
      ws.graph.Drops ws'.graph 5 := by
  have hcheck : ((empty.runAll flipped).any fun ws =>
      ((Action.setVariantCount "Switch" 1).run ws).any fun ws' =>
        ws.graph.wires = [⟨0, 3⟩, ⟨1, 5⟩] && ws'.graph.wires = [⟨0, 3⟩] &&
        ((ws.graph.node? 2).any fun node => node.inputs = [3, 4, 5]) &&
        ((ws'.graph.node? 2).any fun node => node.inputs = [3, 4]) &&
        (ws'.graph.node? 1).any fun node => node.untyped.isSome) = true := by
    simp only [flipped, runAll, Action.run_defineType]
    cbv
  simp only [Option.any_eq_true, Bool.and_eq_true, decide_eq_true_eq] at hcheck
  obtain ⟨ws, hws, ws', hrun, ⟨⟨⟨hwires, hwires'⟩, node, hn, hinputs⟩, node', hn', hinputs'⟩,
    huntyped⟩ := hcheck
  have hvisited := (Reachable.empty.runAll hws).visited
  obtain ⟨_, hnodes, hlinks⟩ := links_after_resizing hvisited rfl hrun
  refine ⟨ws, ws', hws, hrun, hvisited, rfl, hwires, hwires', ⟨node, node', hn, hn', hinputs,
    hinputs', ?_⟩, huntyped, ?_⟩
  · obtain ⟨_, hpeers, _⟩ := hnodes 2 node node' hn hn'
    exact hpeers 3 (by simp [hinputs, hinputs'])
  · by_contra hkept
    have hmem := (hlinks ⟨1, 5⟩).mpr ⟨by simp [hwires], hkept⟩
    simp [hwires'] at hmem

end Workspace
end BlockGraph
