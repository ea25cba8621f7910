import BlockGraph.Proofs.Workspace.Rebuild

/-!
# Edits that end with a rebuild

Most edits change the graph or the registry and then rebuild the components of
certain sockets.  `Prepared` is what such an edit has to see to before the rebuild:
a node that owns none of these sockets is the same as before, and no link is new.
Then the whole edit keeps a workspace sound and settled.  The second is a case of a
rule for all properties of what hangs together with a node (`Local`).

Rebuilding everything goes from component to component.  It leaves each of them as its
own rebuild has made it, so what is known of one rebuild holds of every component
afterwards, and any sound workspace is settled in this way.
-/

namespace BlockGraph
namespace Workspace

variable {ws ws₁ ws' : Workspace} {seeds : List SocketId} {m n : NodeId} {node : Node}

/-- An edit has been made whose effects hang together with the given sockets. -/
structure Prepared (ws ws₁ : Workspace) (seeds : List SocketId) : Prop where
  graph : ws₁.graph.WellFormed
  nodes : ∀ n node, ws₁.graph.node? n = some node → node.Sound ws₁.registry
  below : Below ws₁.graph ws₁.supply
  same : ∀ m node, ws₁.graph.node? m = some node →
    (∀ s ∈ seeds, ws₁.graph.owner? s ≠ some m) → SameAt ws ws₁ m
  feeds : ∀ p c, ws₁.graph.Feeds p c → ws.graph.Feeds p c

theorem Sound.prepared (h : ws.Sound) (seeds : List SocketId) : Prepared ws ws seeds :=
  ⟨h.graph, h.nodes, h.below, fun m _ _ _ => .refl ws m, fun _ _ hf => hf⟩

namespace Prepared

theorem same_of_connected (hp : Prepared ws ws₁ seeds)
    (hm : m ∉ (ws₁.graph.component seeds).nodes) (hmnode : ws₁.graph.node? m = some node) :
    ∀ k, ws₁.graph.Connected m k → SameAt ws ws₁ k := by
  intro k hk
  obtain ⟨knode, hknode⟩ := hk.node? hp.graph.unlinked hmnode
  refine hp.same k knode hknode fun s hs hown => hm ?_
  exact (Graph.mem_component_nodes hp.graph).mpr ⟨s, hs, k, hown, hk.symm⟩

theorem same_recompute (hws : ws.graph.WellFormed) (hp : Prepared ws ws₁ seeds)
    (hn : ws₁.graph.node? n = some node) (hmem : n ∉ (ws₁.graph.component seeds).nodes) :
    ws.graph.node? n = some node ∧
      ∀ k, ws.graph.Connected n k → SameAt ws (ws₁.recompute seeds).2 k := by
  have hb := recompute_rebuilt hp.graph hp.nodes seeds
  have hsame := hp.same_of_connected hmem hn
  have hback := fun k hk => (hsame k hk).symm hws hp.graph
  have hconn := fun {k} => connected_iff_of_same hp.graph hws hback (m := k)
  refine ⟨(hsame n (.refl _ n)).graph.node ▸ hn, fun k hk => ?_⟩
  have hk := hconn.mp hk
  refine (hsame k hk).trans hws hp.graph (hb.sameShape.sameAt fun s hs => hb.other s ?_)
  rintro ⟨j, hj, hjmem⟩
  rw [hs] at hj
  cases hj
  exact hmem (Graph.component_closed hp.graph hjmem hk.symm)

theorem sound (hws : ws.Sound) (hp : Prepared ws ws₁ seeds) : (ws₁.recompute seeds).2.Sound := by
  have hb := recompute_rebuilt hp.graph hp.nodes seeds
  have hshape := hb.sameShape
  have hnew : ∀ s socket, (ws₁.recompute seeds).2.graph.socket? s = some socket →
      socket.node ∈ (ws₁.graph.component seeds).nodes →
      socket.ty.Within ws₁.supply.next (ws₁.recompute seeds).2.supply.next := by
    intro s socket hs hmem
    rw [← stored_eq hs]
    exact hb.within s ⟨socket.node, hshape.owner?_of_socket? hs, hmem⟩
  refine ⟨hshape.wellFormed.mpr hp.graph, fun n node hn => ?_, fun s socket hs v hv => ?_,
    fun s t socket socket' v hs ht hvs hvt => ?_⟩
  · rw [hshape.registry]
    exact hp.nodes n node (hshape.node? n ▸ hn)
  · by_cases hmem : socket.node ∈ (ws₁.graph.component seeds).nodes
    · exact (hnew s socket hs hmem v hv).2
    · exact Nat.lt_of_lt_of_le (hp.below s socket (hb.socket?_of_not_mem hs hmem) v hv) hb.supply
  · rw [hshape.connected]
    by_cases hmem : socket.node ∈ (ws₁.graph.component seeds).nodes <;>
      by_cases hmem' : socket'.node ∈ (ws₁.graph.component seeds).nodes
    · rw [← stored_eq hs] at hvs
      rw [← stored_eq ht] at hvt
      exact hb.apart s t v _ _ hmem hmem' (hshape.owner?_of_socket? hs)
        (hshape.owner?_of_socket? ht) hvs hvt
    · have hlt := hp.below t socket' (hb.socket?_of_not_mem ht hmem') v hvt
      exact absurd hlt (Nat.not_lt.mpr (hnew s socket hs hmem v hvs).1)
    · have hlt := hp.below s socket (hb.socket?_of_not_mem hs hmem) v hvs
      exact absurd hlt (Nat.not_lt.mpr (hnew t socket' ht hmem' v hvt).1)
    · -- Both sockets are as they were before the edit, where they hung together.
      have hgraph := hshape.wellFormed.mpr hp.graph
      have hcases : ∀ s socket, (ws₁.recompute seeds).2.graph.socket? s = some socket →
          socket.node ∉ (ws₁.graph.component seeds).nodes →
          (∀ k, ws.graph.Connected socket.node k → SameAt ws (ws₁.recompute seeds).2 k) ∧
            ws.graph.socket? s = some socket := by
        intro s socket hs hmem
        obtain ⟨node, hnode, _⟩ := Graph.owner?_node hp.graph (hshape.owner?_of_socket? hs)
        obtain ⟨_, hsame⟩ := hp.same_recompute hws.graph hnode hmem
        have hself := hsame socket.node (.refl _ _)
        have howner := (hself.graph.owner hws.graph hgraph).mp (Graph.owner?_of_socket? hs)
        exact ⟨hsame, (hself.graph.socket s howner).symm.trans hs⟩
      obtain ⟨hsame, hs⟩ := hcases s socket hs hmem
      obtain ⟨_, ht⟩ := hcases t socket' ht hmem'
      exact hshape.connected.mp ((connected_iff_of_same hws.graph hgraph hsame).mpr
        (hws.apart s t socket socket' v hs ht hvs hvt))

end Prepared

/-- An edit has ended with a rebuild. -/
def RebuiltFrom (ws ws' : Workspace) : Prop :=
  ∃ ws₁ seeds, Prepared ws ws₁ seeds ∧ ws' = (ws₁.recompute seeds).2

/-- An edit has ended with a rebuild from the given sockets. -/
def RebuiltBy (ws ws' : Workspace) (seeds : List SocketId) : Prop :=
  ∃ ws₁, Prepared ws ws₁ seeds ∧ ws' = (ws₁.recompute seeds).2

theorem RebuiltBy.rebuiltFrom (h : RebuiltBy ws ws' seeds) : RebuiltFrom ws ws' := by
  obtain ⟨ws₁, hp, heq⟩ := h
  exact ⟨ws₁, seeds, hp, heq⟩

theorem RebuiltFrom.sound (h : RebuiltFrom ws ws') (hws : ws.Sound) : ws'.Sound := by
  obtain ⟨ws₁, seeds, hp, rfl⟩ := h
  exact hp.sound hws

/-- A property of what hangs together with a node, which looks at nothing else. -/
def Local (P : Workspace → NodeId → Prop) : Prop :=
  ∀ {ws ws' : Workspace} {n : NodeId}, ws.graph.WellFormed → ws'.graph.WellFormed →
    (∀ m, ws.graph.Connected n m → SameAt ws ws' m) → P ws n → P ws' n

/-- A local property holds after an edit if the rebuild brings it about where it reaches, and if it
held before. -/
theorem RebuiltFrom.holds {P : Workspace → NodeId → Prop} (hP : Local P) (h : RebuiltFrom ws ws')
    (hws : ws.graph.WellFormed)
    (hnew : ∀ n ws₁ seeds, Prepared ws ws₁ seeds → n ∈ (ws₁.graph.component seeds).nodes →
      P (ws₁.recompute seeds).2 n)
    (hold : ∀ n node, ws.graph.node? n = some node → P ws n) (n : NodeId) (node : Node)
    (hn : ws'.graph.node? n = some node) : P ws' n := by
  obtain ⟨ws₁, seeds, hp, rfl⟩ := h
  have hshape := (recompute_rebuilt hp.graph hp.nodes seeds).sameShape
  by_cases hmem : n ∈ (ws₁.graph.component seeds).nodes
  · exact hnew n ws₁ seeds hp hmem
  · obtain ⟨hnode, hsame⟩ := hp.same_recompute hws ((hshape.node? n).symm.trans hn) hmem
    exact hP hws (hshape.wellFormed.mpr hp.graph) hsame (hold n node hnode)

theorem RebuiltFrom.settled (h : RebuiltFrom ws ws') (hws : ws.Sound) (hsettled : ws.Settled) :
    ws'.Settled :=
  h.holds Good.of_same hws.graph
    (fun n _ seeds hp hmem => (recompute_rebuilt hp.graph hp.nodes seeds).good n hmem) hsettled

/-! ## Rebuilding everything -/

theorem recomputeEach_spec (h : ws.Sound) (nodes : List NodeId) :
    (ws.recomputeEach nodes).2.Sound ∧ SameShape ws (ws.recomputeEach nodes).2 := by
  induction nodes generalizing ws with
  | nil => exact ⟨h, .refl ws⟩
  | cons x rest ih =>
    let seeds := (ws.graph.socketAt? x .output).toList
    obtain ⟨hsound, hshape⟩ := ih ((h.prepared seeds).sound h)
    exact ⟨hsound, (recompute_rebuilt h.graph h.nodes seeds).sameShape.trans hshape⟩

theorem resolveAll_sound (h : ws.Sound) : ws.resolveAll.2.Sound :=
  (recomputeEach_spec h _).1

theorem resolveAll_sameShape (h : ws.Sound) : SameShape ws ws.resolveAll.2 :=
  (recomputeEach_spec h _).2

theorem recomputeEach_other (h : ws.Sound) {nodes : List NodeId} {s : SocketId}
    (hn : ∀ m ∈ nodes, n ∉ (ws.graph.component (ws.graph.socketAt? m .output).toList).nodes)
    (hs : ws.SocketOf (ws.graph.Connected n) s) :
    (ws.recomputeEach nodes).2.graph.socket? s = ws.graph.socket? s := by
  induction nodes generalizing ws with
  | nil => rfl
  | cons x rest ih =>
    obtain ⟨hx, hrest⟩ := List.forall_mem_cons.mp hn
    obtain ⟨k, hk, hc⟩ := hs
    let seeds := (ws.graph.socketAt? x .output).toList
    have hb := recompute_rebuilt h.graph h.nodes seeds
    have houtline := hb.sameShape.outline
    refine (ih ((h.prepared seeds).sound h) (fun m hm => ?_) ?_).trans (hb.other s ?_)
    · rw [Graph.socketAt?_congr houtline, Graph.component_congr houtline]
      exact hrest m hm
    · exact ⟨k, (hb.sameShape.owner? s).trans hk, hb.sameShape.connected.mpr hc⟩
    · rintro ⟨k', hk', hmem⟩
      rw [hk] at hk'
      cases hk'
      exact hx (Graph.component_closed h.graph hmem hc.symm)

/-- A component is left as the last rebuild that concerns it has made it. -/
theorem recomputeEach_last (h : ws.Sound) {nodes : List NodeId}
    (hn : ∃ m ∈ nodes, n ∈ (ws.graph.component (ws.graph.socketAt? m .output).toList).nodes) :
    ∃ ws₀, ∃ m ∈ nodes, ws₀.Sound ∧ SameShape ws ws₀ ∧
      n ∈ (ws.graph.component (ws.graph.socketAt? m .output).toList).nodes ∧
      (ws₀.recompute (ws.graph.socketAt? m .output).toList).1 <:+: (ws.recomputeEach nodes).1 ∧
      ∀ s, ws.SocketOf (ws.graph.Connected n) s → (ws.recomputeEach nodes).2.graph.socket? s =
        (ws₀.recompute (ws.graph.socketAt? m .output).toList).2.graph.socket? s := by
  induction nodes generalizing ws with
  | nil =>
    obtain ⟨m, hm, _⟩ := hn
    exact absurd hm List.not_mem_nil
  | cons x rest ih =>
    let seeds := (ws.graph.socketAt? x .output).toList
    have hsound := (h.prepared seeds).sound h
    have hshape := (recompute_rebuilt h.graph h.nodes seeds).sameShape
    have hseeds : ∀ m, (ws.recompute seeds).2.graph.socketAt? m .output =
        ws.graph.socketAt? m .output := fun m => Graph.socketAt?_congr hshape.outline
    have hsocket : ∀ s, ws.SocketOf (ws.graph.Connected n) s →
        (ws.recompute seeds).2.SocketOf ((ws.recompute seeds).2.graph.Connected n) s := by
      rintro s ⟨k, hk, hc⟩
      exact ⟨k, (hshape.owner? s).trans hk, hshape.connected.mpr hc⟩
    by_cases hlater :
        ∃ m ∈ rest, n ∈ (ws.graph.component (ws.graph.socketAt? m .output).toList).nodes
    · obtain ⟨m, hm, hmem⟩ := hlater
      obtain ⟨ws₀, m, hm, hsound₀, hshape₀, hmem, herrors, hsockets⟩ := ih hsound
        ⟨m, hm, by rwa [hseeds, Graph.component_congr hshape.outline]⟩
      rw [hseeds] at hmem herrors hsockets
      rw [Graph.component_congr hshape.outline] at hmem
      refine ⟨ws₀, m, List.mem_cons_of_mem x hm, hsound₀, hshape.trans hshape₀, hmem, ?_,
        fun s hs => hsockets s (hsocket s hs)⟩
      exact herrors.trans (List.suffix_append _ _).isInfix
    · have hx : n ∈ (ws.graph.component seeds).nodes := by
        obtain ⟨m, hm, hmem⟩ := hn
        rcases List.mem_cons.mp hm with rfl | hm
        · exact hmem
        · exact absurd ⟨m, hm, hmem⟩ hlater
      refine ⟨ws, x, List.mem_cons_self, h, .refl ws, hx, (List.prefix_append _ _).isInfix,
        fun s hs => recomputeEach_other hsound (fun m hm hmem => hlater ⟨m, hm, ?_⟩) (hsocket s hs)⟩
      rwa [hseeds, Graph.component_congr hshape.outline] at hmem

/-- What hangs together is left as a rebuild of this component alone has made it. -/
theorem resolveAll_last (h : ws.Sound) (hn : ws.graph.node? n = some node) :
    ∃ ws₀ seeds, ws₀.Sound ∧ SameShape ws ws₀ ∧
      (∀ m, m ∈ (ws₀.graph.component seeds).nodes ↔ ws₀.graph.Connected n m) ∧
      (ws₀.recompute seeds).1 <:+: ws.resolveAll.1 ∧
      ∀ m, (ws₀.recompute seeds).2.graph.Connected n m →
        SameAt (ws₀.recompute seeds).2 ws.resolveAll.2 m := by
  obtain ⟨m, node', hm, hnode', hc⟩ := Graph.mem_components h.graph hn
  obtain ⟨ws₀, m, hm, hsound, hshape, hmem, herrors, hsockets⟩ :=
    recomputeEach_last h ⟨m, hm, (Graph.mem_component_output h.graph hnode').mpr hc⟩
  let seeds := (ws.graph.socketAt? m .output).toList
  have hrebuilt := hshape.trans (recompute_rebuilt hsound.graph hsound.nodes seeds).sameShape
  refine ⟨ws₀, seeds, hsound, hshape, fun k => ?_, herrors, fun k hk => ?_⟩
  · rw [Graph.component_congr hshape.outline, hshape.connected]
    exact ⟨Graph.connected_of_mem_output h.graph hmem, Graph.component_closed h.graph hmem⟩
  · refine (hrebuilt.symm.trans (resolveAll_sameShape h)).sameAt fun s hs => ?_
    exact hsockets s ⟨k, (hrebuilt.owner? s).symm.trans hs, hrebuilt.connected.mp hk⟩

/-- A local property holds after everything is rebuilt if each rebuild brings it about. -/
theorem resolveAll_holds {P : Workspace → NodeId → Prop} (hP : Local P) (h : ws.Sound)
    (hnew : ∀ ws₀ seeds, ws₀.Sound → SameShape ws ws₀ →
      (∀ m, m ∈ (ws₀.graph.component seeds).nodes ↔ ws₀.graph.Connected n m) →
      P (ws₀.recompute seeds).2 n)
    (hn : ws.graph.node? n = some node) : P ws.resolveAll.2 n := by
  obtain ⟨ws₀, seeds, hsound, hshape, hnodes, _, hsame⟩ := resolveAll_last h hn
  have hb := recompute_rebuilt hsound.graph hsound.nodes seeds
  exact hP (hb.sameShape.wellFormed.mpr hsound.graph) (resolveAll_sound h).graph hsame
    (hnew ws₀ seeds hsound hshape hnodes)

theorem resolveAll_settled (h : ws.Sound) : ws.resolveAll.2.Settled := by
  intro n node hn
  rw [(resolveAll_sameShape h).node?] at hn
  refine resolveAll_holds Good.of_same h (fun ws₀ seeds hsound _ hnodes => ?_) hn
  exact (recompute_rebuilt hsound.graph hsound.nodes seeds).good n ((hnodes n).mpr (.refl _ n))

end Workspace
end BlockGraph
