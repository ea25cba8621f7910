import BlockGraph.Proofs.Workspace.Install

/-!
# Edits of nodes and lost links

Adding and removing a node, setting the number of items of a list, giving a field of
a branch another name, and removing a link all end with a rebuild.  Each rebuilds
the components of the sockets at which the graph has changed.
-/

namespace BlockGraph

/-- The names in a distinction of cases have no part in its signature. -/
theorem Node.Sound.withBinders {r : Registry} {node : Node} (h : node.Sound r) {type : String}
    {binders : List (List String)} (hblock : node.block = .caseOf type binders)
    (binders' : List (List String)) :
    Node.Sound r { node with block := .caseOf type binders' } := by
  refine ⟨fun huntyped => ?_, nofun, fun type' _ hblock' huntyped => ?_⟩
  · obtain ⟨scheme, hscheme, hlen⟩ := h.arity huntyped
    refine ⟨scheme, ?_, hlen⟩
    rw [Node.scheme?, hblock] at hscheme
    rw [Node.scheme?]
    cases hsig : node.signature with
    | none =>
      rw [hsig] at hscheme
      cases hscheme
    | some t =>
      rw [hsig] at hscheme
      exact hscheme
  · cases hblock'
    exact h.caseOf type binders hblock huntyped

theorem Graph.nodes_removeSockets (g : Graph) (list : List SocketId) :
    (g.removeSockets list).2.nodes = g.nodes := by
  induction list generalizing g with
  | nil => rfl
  | cons s rest ih => exact ih (g.removeSocket s)

namespace Workspace

variable {ws ws' ws₀ : Workspace} {n : NodeId} {node : Node} {branch field : Nat}
  {errors : List TypeError} {given name : String} {i o : SocketId}

theorem installAll_singleton (ws : Workspace) (n : NodeId) :
    ws.installAll [n] = ((ws.install n).1 ++ ((ws.install n).2.graph.socketAt? n .output).toList,
      (ws.install n).2) := by
  simp [installAll]

theorem install_prepared (h₀ : ws₀.graph.WellFormed) (h : ws.graph.WellFormed)
    (hbelow : Below ws.graph ws.supply)
    (hsound : ∀ m node, m ≠ n → ws.graph.node? m = some node → node.Sound ws.registry)
    (hsame : ∀ m node, m ≠ n → ws.graph.node? m = some node → SameAt ws₀ ws m)
    (hfeeds : ∀ p c, ws.graph.Feeds p c → ws₀.graph.Feeds p c) :
    Prepared ws₀ (ws.install n).2
      ((ws.install n).1 ++ ((ws.install n).2.graph.socketAt? n .output).toList) := by
  have hne : ∀ m, m ∉ [n] → m ≠ n := fun m hm he => hm (List.mem_singleton.mpr he)
  have hp := installAll_prepared h₀ h hbelow (fun m node hm => hsound m node (hne m hm))
    (fun m node hm => hsame m node (hne m hm)) hfeeds
  rwa [installAll_singleton] at hp

theorem Supply.le_instantiate (t : Ty) (s : Supply) : s.next ≤ (t.instantiate s).2.next :=
  Nat.le_add_right ..

/-- The output of a new node has a fresh variable. -/
theorem below_of_insert (h : Below ws.graph ws.supply) {supply : Supply}
    (hsupply : ws.supply.next ≤ supply.next) {graph : Graph} {s : SocketId}
    (hsocket : ∀ t, graph.socket? t =
      if t = s then some ⟨n, .output, supply.fresh.1, .unbound⟩ else ws.graph.socket? t) :
    Below graph supply.fresh.2 := by
  intro t socket ht v hv
  rw [hsocket] at ht
  split at ht
  · cases ht
    rw [List.mem_singleton.mp hv]
    exact Nat.lt_succ_self _
  · exact Nat.lt_succ_of_lt (Nat.lt_of_lt_of_le (h t socket ht v hv) hsupply)

theorem addNode_rebuiltBy (h : ws.Sound) {block : Block}
    (hok : addNode block ws = .ok n ws') : ∃ seed, RebuiltBy ws ws' [seed] := by
  obtain ⟨n', s, graph, hinsert, hwf, hnew, hfresh, hlinks, hnode, hsocket⟩ :=
    Graph.insertNode_spec h.graph block (ws.supply.past block.leaves).fresh.1
  let ws₁ : Workspace := { ws with graph, supply := (ws.supply.past block.leaves).fresh.2 }
  have hbelow : Below ws₁.graph ws₁.supply :=
    below_of_insert h.below (ws.supply.le_past block.leaves) hsocket
  have hold : ∀ m node, m ≠ n' → ws₁.graph.node? m = some node → ws.graph.node? m = some node :=
    fun m node hm hn => by rwa [hnode, if_neg hm] at hn
  have hsame : ∀ m node, m ≠ n' → ws₁.graph.node? m = some node → SameAt ws ws₁ m := by
    intro m node hm _
    refine ⟨⟨by rw [hnode, if_neg hm], fun t ht => ?_, fun t _ => ?_⟩, fun _ _ _ _ _ => rfl⟩
    · obtain ⟨socket, hs, _⟩ := Option.map_eq_some_iff.mp ht
      rw [hsocket, if_neg]
      rintro rfl
      rw [hfresh] at hs
      cases hs
    · rw [Graph.peer?, Graph.neighbours, hlinks, Graph.peer?, Graph.neighbours]
  have hfeeds : ∀ p c, ws₁.graph.Feeds p c → ws.graph.Feeds p c := by
    refine fun p c => Graph.Feeds.of_wired h.graph (fun a b hw => ?_) fun t k hold ht => ?_
    · rwa [Graph.Wired, hlinks] at hw
    · rw [Graph.owner?, hsocket] at ht
      split at ht
      · next hts =>
        rw [Graph.owner?, hts, hfresh] at hold
        exact absurd rfl hold
      · exact ht
  have hp := install_prepared h.graph hwf hbelow
    (fun m node hm hn => h.nodes m node (hold m node hm hn)) hsame hfeeds
  -- The new node has no inputs that could go.
  obtain ⟨displaced, graph', supply', hinstall, _, _, _, ⟨node', hnode', _⟩, hempty⟩ :=
    @install_spec ws₁ n' _ hwf (by rw [hnode, if_pos rfl]) hbelow
  have hseed : graph'.socketAt? n' .output = some node'.output := by
    simp [Graph.socketAt?, hnode']
  simp only [hinstall, hempty rfl, List.nil_append, hseed, Option.toList_some] at hp
  refine ⟨node'.output, _, hp, ?_⟩
  simp only [addNode, hinsert] at hok
  rw [hinstall] at hok
  simp only [hseed, Option.toList_some] at hok
  cases hok
  rfl

theorem addNode_rebuiltFrom (h : ws.Sound) {block : Block}
    (hok : addNode block ws = .ok n ws') : RebuiltFrom ws ws' := by
  obtain ⟨_, hb⟩ := addNode_rebuiltBy h hok
  exact hb.rebuiltFrom

theorem setArity_rebuiltFrom (h : ws.Sound) {items : Nat}
    (hok : setArity n items ws = .ok errors ws') : RebuiltFrom ws ws' := by
  rw [setArity] at hok
  split at hok
  · cases hok
  next node hn =>
  split at hok
  · let ws₁ : Workspace :=
      { ws with graph := ws.graph.modifyNode n fun node => { node with block := .list items } }
    have honly : Graph.OnlyAt ws.graph ws₁.graph (· = n) [] :=
      Graph.modifyNode_onlyAt h.graph n fun _ => rfl
    have hp := install_prepared h.graph honly.wellFormed h.below
      (fun m node hm hnode => h.nodes m node ((honly.node m hm).symm.trans hnode))
      (fun m node hm _ => ⟨honly.same m hm fun s hs => absurd hs List.not_mem_nil,
        fun _ _ _ _ _ => rfl⟩) honly.feeds
    refine ⟨_, _, hp, ?_⟩
    cases hok
    have hnode₁ : ∃ node₁, ws₁.graph.node? n = some node₁ := by
      have hout := honly.output n
      rw [hn] at hout
      obtain ⟨node₁, hnode₁, _⟩ := Option.map_eq_some_iff.mp hout
      exact ⟨node₁, hnode₁⟩
    obtain ⟨node₁, hnode₁⟩ := hnode₁
    obtain ⟨displaced, graph, supply, hinstall, honly', _⟩ :=
      install_spec honly.wellFormed hnode₁ h.below
    have houtput : (ws₁.install n).2.graph.socketAt? n .output = some node.output := by
      rw [hinstall]
      show (graph.node? n).map Node.output = some node.output
      rw [honly'.output, honly.output, hn]
      rfl
    rw [houtput]
    rfl
  · cases hok

theorem renameBinder_eq (hok : renameBinder n branch field name ws = .ok given ws') :
    ∃ node type binders names, ws.graph.node? n = some node ∧ node.block = .caseOf type binders ∧
      binders[branch]? = some names ∧
      ws' = ({ ws with graph := ws.graph.modifyNode n fun node =>
        { node with block := .caseOf type (binders.set branch (names.set field name)) } }.recompute
          [node.output]).2 := by
  rw [renameBinder] at hok
  split at hok
  · cases hok
  next node hn =>
  split at hok
  · next type binders hblock =>
    split at hok
    · cases hok
    next names hnames =>
    split at hok
    · cases hok
    split at hok
    · cases hok
    split at hok
    · cases hok
    injection hok with _ hws
    exact ⟨node, type, binders, names, hn, hblock, hnames, hws.symm⟩
  · cases hok

theorem renameBinder_rebuiltBy (h : ws.Sound)
    (hok : renameBinder n branch field name ws = .ok given ws') :
    ∃ seed, RebuiltBy ws ws' [seed] := by
  obtain ⟨node, type, binders, names, hn, hblock, _, hws⟩ := renameBinder_eq hok
  let block : Block := .caseOf type (binders.set branch (names.set field name))
  let graph := ws.graph.modifyNode n fun node => { node with block }
  have hnode : ∀ m, graph.node? m =
      if m = n then some { node with block } else ws.graph.node? m :=
    Graph.node?_modifyNode hn _
  have honly : Graph.OnlyAt ws.graph graph (· = n) [] :=
    Graph.modifyNode_onlyAt h.graph n fun _ => rfl
  refine ⟨node.output, { ws with graph }, ⟨honly.wellFormed, fun m node' hnode' => ?_, h.below,
    fun m node' hnode' hm => ?_, honly.feeds⟩, hws⟩
  · show node'.Sound ws.registry
    rw [hnode] at hnode'
    split at hnode'
    · next hm =>
      subst hm
      cases hnode'
      exact (h.nodes m node hn).withBinders hblock _
    · exact h.nodes m node' hnode'
  · have hmn : m ≠ n := by
      rintro rfl
      have howner := Graph.owner?_output h.graph hn
      exact hm node.output (List.mem_singleton_self _) howner
    exact ⟨honly.same m hmn fun s hs => absurd hs List.not_mem_nil, fun _ _ _ _ _ => rfl⟩

theorem renameBinder_rebuiltFrom (h : ws.Sound)
    (hok : renameBinder n branch field name ws = .ok given ws') : RebuiltFrom ws ws' := by
  obtain ⟨_, hb⟩ := renameBinder_rebuiltBy h hok
  exact hb.rebuiltFrom

theorem removeNode_rebuiltFrom (h : ws.Sound) (hok : removeNode n ws = .ok errors ws') :
    RebuiltFrom ws ws' := by
  cases hn : ws.graph.node? n with
  | none =>
    rw [removeNode, Graph.removeNode, hn] at hok
    cases hok
  | some node =>
    obtain ⟨peers, graph, hremove, hwf, hnode, hsocket, hwired, hpeers⟩ :=
      Graph.removeNode_spec h.graph hn
    rw [removeNode, hremove] at hok
    refine ⟨{ ws with graph }, peers, ⟨hwf, fun m node' hnode' => ?_, fun t socket ht => ?_,
      fun m node' hnode' hm => ?_, fun p c => ?_⟩, by cases hok; rfl⟩
    · rw [hnode] at hnode'
      split at hnode'
      · cases hnode'
      · exact h.nodes m node' hnode'
    · rw [hsocket] at ht
      split at ht
      · cases ht
      · exact h.below t socket ht
    · have hmn : m ≠ n := by
        rintro rfl
        rw [hnode, if_pos rfl] at hnode'
        cases hnode'
      have hother : ∀ t, ws.graph.owner? t = some m → ws.graph.owner? t ≠ some n := by
        intro t ht he
        exact hmn (Option.some.inj (ht.symm.trans he))
      refine ⟨⟨by rw [hnode, if_neg hmn], fun t ht => by rw [hsocket, if_neg (hother t ht)],
        fun t ht => ?_⟩, fun _ _ _ _ _ => rfl⟩
      -- A link to the removed node would have its other end among the sockets to rebuild from.
      have hkept : ∀ u, ws.graph.peer? t = some u → ws.graph.owner? u ≠ some n := by
        intro u hu he
        have hmem := hpeers u t he (hother t ht) ((Graph.peer?_comm h.graph.links).mp hu)
        refine hm t hmem ?_
        rw [Graph.owner?, hsocket, if_neg (hother t ht)]
        exact ht
      refine Graph.peer?_congr h.graph.links hwf.links fun u => ?_
      rw [hwired, hwired, ← Graph.peer?_eq_some_iff h.graph.links]
      constructor
      · exact fun hu => (Graph.peer?_eq_some_iff h.graph.links).mpr (hu.imp And.left And.left)
      · intro hu
        have hun := hkept u hu
        exact ((Graph.peer?_eq_some_iff h.graph.links).mp hu).imp
          (fun hw => ⟨hw, hother t ht, hun⟩) fun hw => ⟨hw, hun, hother t ht⟩
    · refine Graph.Feeds.of_wired h.graph (fun a b hw => ((hwired a b).mp hw).1) fun t k _ ht => ?_
      rw [Graph.owner?, hsocket] at ht
      split at ht
      · cases ht
      · exact ht

theorem removeNode_nodes (h : ws.Sound) (hok : removeNode n ws = .ok errors ws') :
    ws'.graph.nodes = ws.graph.nodes.erase n := by
  cases hn : ws.graph.node? n with
  | none =>
    rw [removeNode, Graph.removeNode, hn] at hok
    cases hok
  | some node =>
    obtain ⟨peers, graph, hremove, hwf, _⟩ := Graph.removeNode_spec h.graph hn
    have hnodes : graph.nodes = ws.graph.nodes.erase n := by
      rw [Graph.removeNode, hn] at hremove
      cases hremove
      exact Graph.nodes_removeSockets ..
    rw [removeNode, hremove] at hok
    cases hok
    exact (@recompute_redrawn { ws with graph } hwf peers).sameShape.nodes.trans hnodes

theorem disconnect_rebuiltBy (h : ws.Sound) (hok : disconnect o i ws = .ok errors ws') :
    RebuiltBy ws ws' [o, i] := by
  rw [disconnect] at hok
  split at hok
  · cases hok
  next graph hunwire =>
  obtain ⟨hwf, hnodes, hsockets, _, hwired⟩ := Graph.unwire?_spec h.graph hunwire
  have hnode : ∀ m, graph.node? m = ws.graph.node? m := fun m => by rw [Graph.node?, hnodes]; rfl
  have hsocket : ∀ t, graph.socket? t = ws.graph.socket? t := fun t => by
    rw [Graph.socket?, hsockets]
    rfl
  have hfeeds : ∀ p c, graph.Feeds p c → ws.graph.Feeds p c := by
    refine fun p c => Graph.Feeds.of_wired h.graph (fun a b hw => ((hwired a b).mp hw).1) ?_
    intro t k _ ht
    rwa [Graph.owner?, hsocket] at ht
  refine ⟨{ ws with graph }, ⟨hwf, fun m node hn => h.nodes m node (hnode m ▸ hn),
    fun t socket ht => h.below t socket (hsocket t ▸ ht), fun m node hn hm => ?_, hfeeds⟩,
    by cases hok; rfl⟩
  refine ⟨⟨hnode m, fun t _ => hsocket t, fun t ht => ?_⟩, fun _ _ _ _ _ => rfl⟩
  have hends : ∀ s ∈ [o, i], t ≠ s := by
    rintro s hs rfl
    refine hm t hs ?_
    rw [Graph.owner?, hsocket]
    exact ht
  have ho := hends o List.mem_cons_self
  have hi := hends i (List.mem_cons_of_mem o (List.mem_singleton_self i))
  refine Graph.peer?_congr h.graph.links hwf.links fun u => ?_
  rw [hwired, hwired]
  exact ⟨fun hu => hu.imp And.left And.left,
    fun hu => hu.imp (fun hw => ⟨hw, fun he => ho he.1⟩) fun hw => ⟨hw, fun he => hi he.2⟩⟩

theorem disconnect_rebuiltFrom (h : ws.Sound) (hok : disconnect o i ws = .ok errors ws') :
    RebuiltFrom ws ws' :=
  (disconnect_rebuiltBy h hok).rebuiltFrom

theorem disconnect_nodes (h : ws.Sound) (hok : disconnect o i ws = .ok errors ws') :
    ws'.graph.nodes = ws.graph.nodes := by
  rw [disconnect] at hok
  split at hok
  · cases hok
  next graph hunwire =>
  obtain ⟨hwf, hnodes, _⟩ := Graph.unwire?_spec h.graph hunwire
  cases hok
  exact (@recompute_redrawn { ws with graph } hwf [o, i]).sameShape.nodes.trans hnodes

end Workspace
end BlockGraph
