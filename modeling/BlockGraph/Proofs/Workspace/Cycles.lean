import BlockGraph.Proofs.Graph.Cycles
import BlockGraph.Proofs.Workspace.Growth

/-!
# Sockets that are marked with a cycle

A rebuild that finds a cycle marks sockets with it.  Rebuilding everything goes from
component to component, and marks the sockets of those that have a cycle.  An edit
may rebuild several components at once.  It looks for one order of all their nodes,
so one cycle is enough to mark all of them.  `MarkedTogether` says what such an edit
does to marks.  A socket outside a component with a cycle gets a mark in this way
only, and keeps it until its component is rebuilt again.
-/

namespace BlockGraph

theorem Node.LookedUp.untyped_eq {node : Node} {r : Registry} {s s' : Supply} {e : TypeError}
    (h : node.LookedUp r s s') (he : node.untyped = some e) :
    ∃ fault, e = .invalidSignature fault := by
  obtain ⟨_, _, _, _, hinst⟩ := h
  cases hinst with
  | found _ _ => cases he
  | @missing fault inputs _ =>
    cases he
    exact ⟨fault, rfl⟩

namespace Workspace

variable {ws ws' ws₀ : Workspace} {seeds : List SocketId} {o i s : SocketId} {m n p c : NodeId}
  {node : Node} {K : NodeId → Prop} {new old : String}

/-! ## Nodes without a signature -/

/-- Nodes are without a signature only because of a fault of the signature. -/
def Explained (ws : Workspace) : Prop :=
  ∀ n node e, ws.graph.node? n = some node → node.untyped = some e →
    ∃ fault, e = .invalidSignature fault

theorem Revised.explained {nodes : List NodeId} (h : Revised ws ws' nodes) (hx : ws.Explained) :
    ws'.Explained := by
  intro n node e hn he
  rcases h.node n node hn with hlook | ⟨hold, _⟩
  · exact hlook.untyped_eq he
  · exact hx n node e hold he

theorem Explained.of_resembles (hx : ws.Explained)
    (hresembles : ∀ n node', ws'.graph.node? n = some node' →
      ∃ node, ws.graph.node? n = some node ∧ node.Resembles node') : ws'.Explained := by
  intro n node' e hn he
  obtain ⟨node, hn, hsame⟩ := hresembles n node' hn
  exact hx n node e hn (hsame.untyped ▸ he)

theorem Explained.run (h : ws.Sound) (hx : ws.Explained) {action : Action}
    (hrun : action.run ws = some ws') : ws'.Explained :=
  action.run_nodes h hrun (fun _ _ _ hr => hr.explained)
    (fun _ _ hresembles hx => hx.of_resembles hresembles) hx

theorem Visited.explained (h : ws.Visited) : ws.Explained := by
  refine h.of_nodes (fun n node e hn => ?_) (fun _ _ _ hr => hr.explained)
    fun _ _ hresembles hx => hx.of_resembles hresembles
  cases (empty_node? n).symm.trans hn

/-! ## Marks -/

/-- A socket is marked with a cycle. -/
def Marked (ws : Workspace) (s : SocketId) : Prop :=
  ∃ socket n, ws.graph.socket? s = some socket ∧ socket.state = .invalid (.dangling (.cycle n))

theorem Marked.congr (h : ws'.graph.socket? s = ws.graph.socket? s) :
    ws'.Marked s ↔ ws.Marked s := by
  rw [Marked, h, Marked]

theorem Explained.settledState_ne (h : ws.Explained) (s : SocketId) (reference : Dangling) :
    ws.settledState s ≠ .invalid (.dangling reference) := by
  rw [settledState]
  split
  · next e huntyped =>
    obtain ⟨node, hnode, he⟩ := Option.bind_eq_some_iff.mp huntyped
    obtain ⟨n, _, hn⟩ := Option.bind_eq_some_iff.mp hnode
    obtain ⟨fault, rfl⟩ := h n node e hn he
    intro hstate
    cases hstate
  · intro hstate
    cases hstate
  · intro hstate
    cases hstate

/-- A rebuild marks all of its sockets if one of its components has a cycle, and otherwise none. -/
theorem marked_recompute_iff (h : ws.graph.WellFormed) (hx : ws.Explained)
    (hs : s ∈ (ws.graph.component seeds).sockets) :
    (ws.recompute seeds).2.Marked s ↔
      ∃ n ∈ (ws.graph.component seeds).nodes, ws.graph.Cyclic n := by
  have hiff := Graph.topologicalOrder_component_iff h seeds
  cases horder : ws.graph.topologicalOrder (ws.graph.component seeds).nodes with
  | error cycle =>
    obtain ⟨k, rfl⟩ := Graph.topologicalOrder_error horder
    have hf := invalidate_finished ((ws.graph.component seeds).nodes.foldl freshInstance ws)
      (.dangling (.cycle k)) (Graph.component_sockets_nodup h seeds)
    obtain ⟨socket, _, hnew, _⟩ := finished_socket h (refreshed_component h seeds) hf hs
    rw [recompute_of_cycle h horder]
    refine iff_of_true ⟨_, k, hnew, rfl⟩ ?_
    by_contra hnone
    obtain ⟨order, hok⟩ := hiff.mpr fun n hn hcyclic => hnone ⟨n, hn, hcyclic⟩
    rw [horder] at hok
    cases hok
  | ok order =>
    obtain ⟨ws₁, z, failures, es, hsolved, _⟩ := recompute_solved h horder
    obtain ⟨socket, _, hnew, _⟩ := finished_socket h hsolved.refreshed hsolved.finished hs
    refine iff_of_false ?_ fun ⟨n, hn, hcyclic⟩ => hiff.mp ⟨order, horder⟩ n hn hcyclic
    rintro ⟨socket', k, hs', hstate⟩
    rw [hnew] at hs'
    cases hs'
    have hstate : ws.solvedState failures s = .invalid (.dangling (.cycle k)) := hstate
    rw [solvedState] at hstate
    split at hstate
    · next e hfail =>
      cases hstate
      obtain ⟨f, hf, hfe⟩ := Option.map_eq_some_iff.mp hfail
      have hclash := hsolved.reason f (List.mem_of_find?_eq_some hf)
      rw [hfe] at hclash
      exact hclash
    · exact hx.settledState_ne s _ hstate

/-! ## What an edit does to marks -/

/-- The sockets of some components are marked together: all of them if one of the components has a
cycle, and otherwise none.  No other socket has got a mark, and no cycle has gone from it. -/
structure MarkedTogether (ws ws' : Workspace) (K : NodeId → Prop) : Prop where
  closed : ∀ a b, ws'.graph.Connected a b → K a → K b
  inside : ∀ s n, ws'.graph.owner? s = some n → K n →
    (ws'.Marked s ↔ ∃ m, K m ∧ ws'.graph.Cyclic m)
  outside : ∀ s n, ws'.graph.owner? s = some n → ¬ K n → ws'.Marked s →
    ws.Marked s ∧ ws.graph.owner? s = some n ∧ (ws.graph.Cyclic n → ws'.graph.Cyclic n)

/-- Marked sockets belong to components with a cycle. -/
def MarksCycles (ws : Workspace) : Prop :=
  ∀ s n, ws.graph.owner? s = some n → ws.Marked s → ws.graph.Cyclic n

theorem MarkedTogether.marksCycles (h : MarkedTogether ws ws' K) (hws : ws.MarksCycles)
    (hone : ∀ m n, K m → K n → ws'.graph.Cyclic m → ws'.graph.Cyclic n) : ws'.MarksCycles := by
  intro s n hs hmarked
  by_cases hn : K n
  · obtain ⟨m, hm, hcyclic⟩ := (h.inside s n hs hn).mp hmarked
    exact hone m n hm hn hcyclic
  · obtain ⟨hold, howner, hkept⟩ := h.outside s n hs hn hmarked
    exact hkept (hws s n howner hold)

theorem RebuiltBy.markedTogether (hb : RebuiltBy ws ws' seeds) (hws : ws.Sound)
    (hx : ws'.Explained) :
    MarkedTogether ws ws' fun n => n ∈ (ws'.graph.component seeds).nodes := by
  obtain ⟨ws₁, hp, rfl⟩ := hb
  have hr := recompute_rebuilt hp.graph hp.nodes seeds
  have hshape := hr.sameShape
  have hgraph := hshape.wellFormed.mpr hp.graph
  have hx₁ : ws₁.Explained := fun n node e hn => hx n node e ((hshape.node? n).trans hn)
  have hcyclic := Graph.cyclic_congr hshape.outline
  refine ⟨fun a b hab ha => Graph.component_closed hgraph ha hab, fun s n hs hn => ?_,
    fun s n hs hn hmarked => ?_⟩
  · rw [Graph.component_congr hshape.outline] at hn ⊢
    rw [hcyclic]
    refine marked_recompute_iff hp.graph hx₁
      ((Graph.mem_component_sockets hp.graph).mpr ⟨n, ?_, hn⟩)
    exact (hshape.owner? s).symm.trans hs
  · rw [Graph.component_congr hshape.outline] at hn
    obtain ⟨node, hnode, _⟩ := Graph.owner?_node hp.graph ((hshape.owner? s).symm.trans hs)
    obtain ⟨_, hsame⟩ := hp.same_recompute hws.graph hnode hn
    have hself := hsame n (.refl _ n)
    have howner : ws.graph.owner? s = some n := (hself.graph.owner hws.graph hgraph).mp hs
    refine ⟨(Marked.congr (hself.graph.socket s howner)).mp hmarked, howner, ?_⟩
    exact (Graph.cyclic_iff_of_sameAt hws.graph hgraph fun k hk => (hsame k hk).graph).mpr

/-- Other names leave marks and cycles as they are. -/
theorem Renames.marked_iff {F : Node → Node} (h : Renames F old new ws ws') :
    ws'.Marked s ↔ ws.Marked s := by
  constructor
  · rintro ⟨socket, k, hs, hstate⟩
    rw [h.socket] at hs
    obtain ⟨socket₀, hs₀, rfl⟩ := Option.map_eq_some_iff.mp hs
    exact ⟨socket₀, k, hs₀, hstate⟩
  · rintro ⟨socket, k, hs, hstate⟩
    exact ⟨_, k, (h.socket s).trans (congrArg _ hs), hstate⟩

theorem Renames.markedTogether {F : Node → Node} (h : Renames F old new ws ws₀)
    (hm : MarkedTogether ws₀ ws' K) : MarkedTogether ws ws' K := by
  refine ⟨hm.closed, hm.inside, fun s n hs hn hmarked => ?_⟩
  obtain ⟨hold, howner, hkept⟩ := hm.outside s n hs hn hmarked
  rw [Graph.owner?_congr h.outline] at howner
  rw [Graph.cyclic_congr h.outline] at hkept
  exact ⟨h.marked_iff.mp hold, howner, hkept⟩

theorem MarkedTogether.refl (ws : Workspace) : MarkedTogether ws ws fun _ => False :=
  ⟨fun _ _ _ h => h, fun _ _ _ h => h.elim, fun _ _ hs _ hmarked => ⟨hmarked, hs, id⟩⟩

theorem connect_markedTogether (h : ws.Sound) (hx : ws.Explained)
    (hok : connect o i ws = .ok () ws') : MarkedTogether ws ws' fun _ => False := by
  obtain ⟨p, c, z, hl, _, _, hm⟩ := connect_ok h.graph hok
  refine ⟨fun _ _ _ hfalse => hfalse, fun _ _ _ hfalse => hfalse.elim, fun s n hs _ hmarked => ?_⟩
  have hs : ws.graph.owner? s = some n := (hm.owner? s).symm.trans hs
  refine ⟨?_, hs, fun hcyclic => ?_⟩
  · by_cases hJ : ws.SocketOf (ws.Joined o i p) s
    · obtain ⟨socket, hsocket, _⟩ := Option.map_eq_some_iff.mp hs
      obtain ⟨socket', k, hs', hstate⟩ := hmarked
      rw [hm.socket s socket hJ hsocket] at hs'
      cases hs'
      have hstate : (if s = o ∨ s = i then (ws.attached o i).settledState s else socket.state) =
        .invalid (.dangling (.cycle k)) := hstate
      split at hstate
      · have hattached : (ws.attached o i).Explained := fun n node e hn => hx n node e hn
        exact absurd hstate (hattached.settledState_ne s _)
      · exact ⟨socket, k, hsocket, hstate⟩
    · exact (Marked.congr (hm.other s hJ)).mp hmarked
  · rw [Graph.cyclic_congr hm.sameShape.outline]
    exact hl.cyclic hcyclic

theorem renameType_markedTogether (h : ws.Sound) {candidate : String} (hx : ws'.Explained)
    (hok : renameType old candidate ws = .ok new ws') : ∃ K, MarkedTogether ws ws' K := by
  rcases renameType_ok h.graph hok with ⟨_, rfl⟩ | ⟨registry, _, _, hr, rfl⟩
  · exact ⟨_, .refl ws'⟩
  · have hsound := hr.sound_workspace h
    obtain ⟨ws₁, seeds, hb⟩ := retryUntyped_rebuiltFrom hsound
    exact ⟨_, hr.markedTogether (RebuiltBy.markedTogether ⟨ws₁, hb⟩ hsound hx)⟩

theorem renameCtor_markedTogether {candidate : String}
    (hok : renameCtor old candidate ws = .ok new ws') : MarkedTogether ws ws' fun _ => False :=
  (renameCtor_ok hok).markedTogether (.refl _)

/-- Every edit but an attached link and a rebuild of everything marks sockets together. -/
theorem Action.run_markedTogether {action : Action} (h : ws.Sound) (hx : ws.Explained)
    (hattach : ∀ output input, action ≠ .attach output input) (hresolve : action ≠ .resolveAll)
    (hrun : action.run ws = some ws') : ∃ K, MarkedTogether ws ws' K := by
  have hx' := hx.run h hrun
  cases action.run_outcome h hrun with
  | rebuilt hb =>
    obtain ⟨ws₁, seeds, hb⟩ := hb
    exact ⟨_, RebuiltBy.markedTogether ⟨ws₁, hb⟩ h hx'⟩
  | connected hok => exact ⟨_, connect_markedTogether h hx hok⟩
  | typeRenamed hok => exact renameType_markedTogether h hx' hok
  | ctorRenamed hok => exact ⟨_, renameCtor_markedTogether hok⟩
  | attached _ => exact absurd rfl (hattach _ _)
  | resolved => exact absurd rfl hresolve

theorem disconnect_markedTogether (h : ws.Sound) (hx : ws.Explained) {errors : List TypeError}
    (hok : disconnect o i ws = .ok errors ws') (hp : ws'.graph.owner? o = some p)
    (hc : ws'.graph.owner? i = some c) :
    MarkedTogether ws ws' fun n => ws'.graph.Connected p n ∨ ws'.graph.Connected c n := by
  have hb := disconnect_rebuiltBy h hok
  have hx' : ws'.Explained := (disconnect_revised h hok).explained hx
  have hm := hb.markedTogether h hx'
  have hgraph := (hb.rebuiltFrom.sound h).graph
  have hnodes : (fun n => n ∈ (ws'.graph.component [o, i]).nodes) =
      fun n => ws'.graph.Connected p n ∨ ws'.graph.Connected c n := by
    funext n
    rw [Graph.mem_component_nodes hgraph, eq_iff_iff]
    simp [hp, hc]
  rwa [hnodes] at hm

/-! ## Rebuilding everything -/

theorem resolveAll_marked_iff (h : ws.Sound) (hx : ws.Explained) (hs : ws.graph.owner? s = some n) :
    ws.resolveAll.2.Marked s ↔ ws.graph.Cyclic n := by
  obtain ⟨node, hnode, _⟩ := Graph.owner?_node h.graph hs
  obtain ⟨ws₀, seeds, hsound, hshape, hnodes, _, hsame⟩ := resolveAll_last h hnode
  have hx : ws₀.Explained := fun m node e hm => hx m node e ((hshape.node? m).symm.trans hm)
  have hs := (hshape.owner? s).trans hs
  have hmem := (hnodes n).mpr (.refl _ n)
  have hrebuilt := (recompute_rebuilt hsound.graph hsound.nodes seeds).sameShape
  rw [Marked.congr ((hsame n (.refl _ n)).graph.socket s ((hrebuilt.owner? s).trans hs)),
    marked_recompute_iff hsound.graph hx
      ((Graph.mem_component_sockets hsound.graph).mpr ⟨n, hs, hmem⟩),
    Graph.cyclic_congr hshape.outline]
  refine ⟨fun ⟨k, hk, hcycle⟩ => ?_, fun hcycle => ⟨n, hmem, hcycle⟩⟩
  exact (Graph.cyclic_of_connected (hshape.connected.mp ((hnodes k).mp hk))).mpr hcycle

theorem resolveAll_marksCycles (h : ws.Sound) (hx : ws.Explained) :
    ws.resolveAll.2.MarksCycles := by
  have hshape := resolveAll_sameShape h
  intro s n hs hmarked
  rw [Graph.cyclic_congr hshape.outline]
  exact (resolveAll_marked_iff h hx ((hshape.owner? s).symm.trans hs)).mp hmarked

/-! ## Runs -/

/-- The edits that rebuild one component at a time. -/
def Action.rebuildsOne : Action → Bool
  | addNode _ | connect _ _ | renameBinder _ _ _ _ | renameCtor _ _ | resolveAll => true
  | _ => false

/-- The workspaces that edits lead to without an attached link that is still to be solved, and
without a rebuild of several components while there is a cycle. -/
inductive Careful : Workspace → Prop
  | empty : Careful empty
  | clear {ws ws' : Workspace} (h : Visited ws) (hok : clear ws = .ok () ws') : Careful ws'
  | resolveAll {ws : Workspace} (h : Visited ws) : Careful ws.resolveAll.2
  | done {ws ws' : Workspace} {action : Action} (h : Careful ws)
      (hattach : ∀ output input, action ≠ .attach output input)
      (hok : action.edit ws = .ok () ws')
      (hone : action.rebuildsOne = true ∨ ∀ n, ¬ ws'.graph.Cyclic n) : Careful ws'
  | refused {ws ws' : Workspace} {action : Action} {e : EditError} (h : Careful ws)
      (hrefused : action.edit ws = .error e ws') : Careful ws'

theorem Careful.visited (h : ws.Careful) : ws.Visited := by
  induction h with
  | empty => exact .empty
  | clear h hok => exact h.clear hok
  | @resolveAll ws h => exact @Visited.done ws _ .resolveAll h rfl
  | done _ _ hok _ ih => exact ih.done hok
  | refused _ hrefused ih => exact ih.refused hrefused

theorem RebuiltBy.marksCycles_singleton {seed : SocketId} (hb : RebuiltBy ws ws' [seed])
    (hws : ws.Sound) (hx : ws'.Explained) (hm : ws.MarksCycles) : ws'.MarksCycles := by
  have hgraph := (hb.rebuiltFrom.sound hws).graph
  refine (hb.markedTogether hws hx).marksCycles hm fun m n hm hn hcyclic => ?_
  obtain ⟨_, hs, k, hk, hkm⟩ := (Graph.mem_component_nodes hgraph).mp hm
  obtain ⟨_, hs', k', hk', hkn⟩ := (Graph.mem_component_nodes hgraph).mp hn
  rw [List.mem_singleton.mp hs] at hk
  rw [List.mem_singleton.mp hs', hk] at hk'
  cases hk'
  exact (Graph.cyclic_of_connected (hkm.symm.trans hkn)).mp hcyclic

theorem Action.run_marksCycles {action : Action} (h : ws.Sound) (hx : ws.Explained)
    (hrun : action.run ws = some ws') (hone : action.rebuildsOne = true) (hm : ws.MarksCycles) :
    ws'.MarksCycles := by
  have hx' := hx.run h hrun
  cases action with
  | addNode block =>
    have hrun : after? (Workspace.addNode block) ws = some ws' := hrun
    obtain ⟨_, hok⟩ := after?_eq_some hrun
    obtain ⟨seed, hb⟩ := addNode_rebuiltBy h hok
    exact hb.marksCycles_singleton h hx' hm
  | connect output input =>
    obtain ⟨_, hok⟩ := after?_eq_some hrun
    exact (connect_markedTogether h hx hok).marksCycles hm fun _ _ hfalse => hfalse.elim
  | renameBinder n branch field name =>
    obtain ⟨_, hok⟩ := after?_eq_some hrun
    obtain ⟨seed, hb⟩ := renameBinder_rebuiltBy h hok
    exact hb.marksCycles_singleton h hx' hm
  | renameCtor old candidate =>
    obtain ⟨_, hok⟩ := after?_eq_some hrun
    exact (renameCtor_markedTogether hok).marksCycles hm fun _ _ hfalse => hfalse.elim
  | resolveAll =>
    cases hrun
    exact resolveAll_marksCycles h hx
  | _ => cases hone

theorem Careful.marksCycles (h : ws.Careful) : ws.MarksCycles := by
  induction h with
  | empty =>
    intro s n hs
    cases hs
  | clear _ hok =>
    intro s n hs
    cases hok
    cases hs
  | resolveAll h => exact resolveAll_marksCycles h.sound h.explained
  | @done ws ws' action h hattach hok hone ih =>
    have hsound := h.visited.sound
    have hx := h.visited.explained
    have hrun := (Action.run_eq_some_iff ws action).mpr hok
    by_cases hrebuilds : action.rebuildsOne = true
    · exact action.run_marksCycles hsound hx hrun hrebuilds ih
    · have hresolve : action ≠ .resolveAll := by
        rintro rfl
        exact hrebuilds rfl
      obtain ⟨K, hK⟩ := action.run_markedTogether hsound hx hattach hresolve hrun
      exact hK.marksCycles ih fun m _ _ _ hcyclic => absurd hcyclic (hone.resolve_left hrebuilds m)
  | refused h hrefused ih =>
    have hsame := refused_graph h.visited.sound.graph hrefused
    intro s n hs hmarked
    rw [hsame] at hs ⊢
    refine ih s n hs ((Marked.congr ?_).mp hmarked)
    rw [hsame]

/-- Rebuilding everything marks the sockets of the components with a cycle.  Other edits mark the
sockets of several components together, and removing a link those of both sides, so a socket of a
component without a cycle can be marked; but not as long as no rebuild takes several components
while there is a cycle. -/
theorem cycle_marks (h : ws.Visited) :
    (∀ s n, ws.graph.owner? s = some n → (ws.resolveAll.2.Marked s ↔ ws.graph.Cyclic n)) ∧
      (∀ (action : Action) ws', (∀ output input, action ≠ .attach output input) →
        action ≠ .resolveAll → action.edit ws = .ok () ws' → ∃ K, MarkedTogether ws ws' K) ∧
      (∀ o i errors ws' p c, disconnect o i ws = .ok errors ws' →
        ws'.graph.owner? o = some p → ws'.graph.owner? i = some c →
        MarkedTogether ws ws' fun n => ws'.graph.Connected p n ∨ ws'.graph.Connected c n) ∧
      (ws.Careful → ∀ s n, ws.graph.owner? s = some n → ws.Marked s → ws.graph.Cyclic n) := by
  have hsound := h.sound
  have hx := h.explained
  refine ⟨fun s n hs => resolveAll_marked_iff hsound hx hs,
    fun action ws' hattach hresolve hok => ?_,
    fun o i errors ws' p c hok hp hc => disconnect_markedTogether hsound hx hok hp hc,
    fun hcareful => hcareful.marksCycles⟩
  exact action.run_markedTogether hsound hx hattach hresolve
    ((Action.run_eq_some_iff ws action).mpr hok)

/-- A list that is an item of itself, with a number as the other item. -/
def listOfItself : List Action :=
  [.addNode (.list 2), .addNode (.literal (.lit "Number" []) "1"), .attach 0 1, .attach 3 2]

/-- When the link to the number is removed, the number is by itself and is marked with the cycle of
the list. -/
theorem runAll_listOfItself :
    ∃ ws ws' : Workspace, ∃ errors, empty.runAll listOfItself = some ws ∧
      disconnect 3 2 ws.resolveAll.2 = .ok errors ws' ∧ ws'.graph.owner? 3 = some 1 ∧
      ws'.graph.owner? 2 = some 0 ∧ ws'.Marked 3 ∧ ¬ ws'.graph.Cyclic 1 := by
  have hrun : ((empty.runAll listOfItself).any fun ws =>
      (after? (disconnect 3 2) ws.resolveAll.2).any fun ws' =>
        ws'.graph.owner? 3 = some 1 && ws'.graph.owner? 2 = some 0 &&
        (ws'.graph.socket? 3).any (fun socket => socket.state = .invalid (.dangling (.cycle 0))) &&
        (ws'.graph.topologicalOrder (ws'.graph.component [3]).nodes).toBool) = true := by cbv
  simp only [Option.any_eq_true, Bool.and_eq_true, decide_eq_true_eq] at hrun
  obtain ⟨ws, hws, ws', hdisconnect, ⟨⟨hnumber, hlist⟩, socket, hsocket, hstate⟩, horder⟩ := hrun
  obtain ⟨errors, hok⟩ := after?_eq_some hdisconnect
  have hsound := (Reachable.empty.runAll hws).sound
  have hgraph := ((disconnect_rebuiltFrom (resolveAll_sound hsound) hok).sound
    (resolveAll_sound hsound)).graph
  refine ⟨ws, ws', errors, hws, hok, hnumber, hlist, ⟨socket, 0, hsocket, hstate⟩, ?_⟩
  refine (Graph.topologicalOrder_component_iff hgraph [3]).mp ?_ 1
    ((Graph.mem_component_singleton hgraph hnumber).mpr (.refl _ 1))
  cases hresult : ws'.graph.topologicalOrder (ws'.graph.component [3]).nodes with
  | ok order => exact ⟨order, rfl⟩
  | error cycle =>
    rw [hresult] at horder
    cases horder

/-- Edits can lead to a marked socket of a component without a cycle. -/
theorem exists_marked_not_cyclic : ∃ ws : Workspace, ws.Resolved ∧
    ∃ s n, ws.graph.owner? s = some n ∧ ws.Marked s ∧ ¬ ws.graph.Cyclic n := by
  obtain ⟨ws, ws', errors, hws, hok, hnumber, _, hmarked, hcyclic⟩ := runAll_listOfItself
  have hrun : (Action.disconnect 3 2).run ws.resolveAll.2 = some ws' := by
    rw [Action.run, after?, hok]
  refine ⟨ws', .run (.resolveAll (Reachable.empty.runAll hws)) ?_ hrun, 3, 1, hnumber, hmarked,
    hcyclic⟩
  intro output input h
  cases h

/-- The number and the list are marked together. -/
theorem cycle_marks_listOfItself :
    ∃ ws ws' : Workspace, ∃ errors, empty.runAll listOfItself = some ws ∧
      disconnect 3 2 ws.resolveAll.2 = .ok errors ws' ∧
      (MarkedTogether ws.resolveAll.2 ws' fun n =>
        ws'.graph.Connected 1 n ∨ ws'.graph.Connected 0 n) ∧ ws'.Marked 3 := by
  obtain ⟨ws, ws', errors, hws, hok, hnumber, hlist, hmarked, _⟩ := runAll_listOfItself
  have hvisited : ws.resolveAll.2.Visited :=
    (Careful.resolveAll (Reachable.empty.runAll hws).visited).visited
  exact ⟨ws, ws', errors, hws, hok,
    (cycle_marks hvisited).2.2.1 3 2 errors ws' 1 0 hok hnumber hlist,
    hmarked⟩

end Workspace
end BlockGraph
