import BlockGraph.Proofs.Workspace.Growth
import BlockGraph.Proofs.Workspace.Truthful
import Mathlib.Data.Finset.Lattice.Fold

/-!
# The shape of the graph

In every workspace that edits lead to, each socket stands once at one node, in the
place that it says, and links lead from outputs to inputs with at most one at each
socket.  `InPlace` says this of a graph, and it holds whether edits on the way have been refused or
not, and whether links have been attached or connected.

An attached link can close a cycle.  As long as none has been attached, no node leads
back to itself.  Then the walk from an output to the node that it feeds, on to the
output of this node and so on, ends at an output that feeds nothing.
-/

namespace BlockGraph
namespace Graph

variable {g : Graph} {s : SocketId} {n : NodeId} {node : Node}

/-! ## Sockets and links in their places -/

/-- Nodes, sockets and links agree with each other. -/
structure InPlace (g : Graph) : Prop where
  /-- A socket stands once at its node. -/
  once : ∀ s socket, g.socket? s = some socket →
    ∃ node, g.node? socket.node = some node ∧ node.sockets.count s = 1
  /-- It stands at no other node. -/
  only : ∀ s socket n node, g.socket? s = some socket → g.node? n = some node →
    s ∈ node.sockets → n = socket.node
  output : ∀ n node, g.node? n = some node →
    ∃ socket, g.socket? node.output = some socket ∧ socket.role = .output
  input : ∀ n node k s, g.node? n = some node → node.inputs[k]? = some s →
    ∃ socket, g.socket? s = some socket ∧ socket.role = .input k
  link_output : ∀ l ∈ g.wires, ∃ socket, g.socket? l.output = some socket ∧ socket.role = .output
  link_input : ∀ l ∈ g.wires, ∃ socket k, g.socket? l.input = some socket ∧ socket.role = .input k
  /-- No socket is on two links. -/
  single : ∀ s, (g.wires.filter fun l => l.output = s || l.input = s).length ≤ 1

theorem link_unique (h : g.links.Simple) {l l' : Link} (hl : l ∈ g.links.newestFirst)
    (hl' : l' ∈ g.links.newestFirst) (hs : l.output = s ∨ l.input = s)
    (hs' : l'.output = s ∨ l'.input = s) : l = l' := by
  obtain ⟨a, b⟩ := l
  obtain ⟨a', b'⟩ := l'
  rcases hs with rfl | rfl <;> rcases hs' with hs' | hs' <;> cases hs'
  · rw [h.input_unique _ _ _ hl hl']
  · exact absurd hl (h.ends_differ _ _ _ hl')
  · exact absurd hl' (h.ends_differ _ _ _ hl)
  · rw [h.output_unique _ _ _ hl hl']

theorem length_links_at_le_one (h : g.WellFormed) (s : SocketId) :
    (g.wires.filter fun l => l.output = s || l.input = s).length ≤ 1 := by
  have hperm := Links.byNumber_perm h.links.numbered
  have hnodup : (g.wires.filter fun l => l.output = s || l.input = s).Nodup :=
    (hperm.nodup_iff.mpr h.links.nodup).filter _
  have hmem : ∀ l ∈ g.wires.filter fun l => l.output = s || l.input = s,
      l ∈ g.links.newestFirst ∧ (l.output = s ∨ l.input = s) := by
    intro l hl
    obtain ⟨hl, hs⟩ := List.mem_filter.mp hl
    exact ⟨hperm.mem_iff.mp hl, by simpa using hs⟩
  match hlist : g.wires.filter fun l => l.output = s || l.input = s with
  | [] => rw [hlist]; exact Nat.zero_le 1
  | [_] => rw [hlist]; exact Nat.le_refl 1
  | l :: l' :: rest =>
    rw [hlist] at hnodup hmem
    obtain ⟨hl, hs⟩ := hmem l List.mem_cons_self
    obtain ⟨hl', hs'⟩ := hmem l' (List.mem_cons_of_mem l List.mem_cons_self)
    have heq := link_unique h.links hl hl' hs hs'
    exact absurd (heq ▸ List.mem_cons_self) (List.nodup_cons.mp hnodup).1

theorem WellFormed.inPlace (h : g.WellFormed) : g.InPlace where
  once s socket hs := by
    obtain ⟨node, hn, hmem⟩ := owner?_node h (owner?_of_socket? hs)
    exact ⟨node, hn, List.count_eq_one_of_mem (sockets_nodup h hn) hmem⟩
  only s socket n node hs hn hmem := by
    have howner := (mem_sockets_iff h hn).mp hmem
    rw [owner?_of_socket? hs] at howner
    exact (Option.some.inj howner).symm
  output n node hn := by
    obtain ⟨socket, hs, _, hrole⟩ := (At.output_eq h hn).mpr rfl
    exact ⟨socket, hs, hrole⟩
  input n node k s hn hk := by
    obtain ⟨socket, hs, _, hrole⟩ := (At.input_eq h hn).mpr hk
    exact ⟨socket, hs, hrole⟩
  link_output l hl := by
    obtain ⟨n, socket, hs, _, hrole⟩ := h.wired_output l.output l.input ((mem_wires h).mp hl)
    exact ⟨socket, hs, hrole⟩
  link_input l hl := by
    obtain ⟨n, k, socket, hs, _, hrole⟩ := h.wired_input l.output l.input ((mem_wires h).mp hl)
    exact ⟨socket, k, hs, hrole⟩
  single := length_links_at_le_one h

/-! ## The way downstream -/

/-- The output that the walk from an output is at after some steps. -/
def downstream? (g : Graph) : Nat → SocketId → Option SocketId
  | 0, output => some output
  | steps + 1, output =>
    (Workspace.consumerNode? g none output).bind fun next => g.downstream? steps next.2.2.output

theorem consumerNode?_of_peer? (h : g.WellFormed) (hn : g.node? n = some node) {input : SocketId}
    (hp : g.peer? node.output = some input) :
    ∃ m role node', Workspace.consumerNode? g none node.output = some (m, role, node') ∧
      g.node? m = some node' ∧ g.Feeds n m := by
  have houtput := (At.output_eq h hn).mpr (rfl : node.output = node.output)
  have hwired := ((peer?_eq_some_iff h.links).mp hp).resolve_right (not_wired_output h houtput)
  obtain ⟨m, k, hinput⟩ := h.wired_input node.output input hwired
  obtain ⟨node', hm⟩ := hinput.node? h
  have howner := owner?_eq_some_iff.mpr ⟨_, hinput⟩
  obtain ⟨socket, hs, rfl, _⟩ := hinput
  refine ⟨socket.node, socket.role, node', ?_, hm, node.output, input, hwired,
    owner?_eq_some_iff.mpr ⟨_, houtput⟩, howner⟩
  simp [Workspace.consumerNode?, Workspace.consumer?, hp, hs, hm]

/-- Without cycles, a rank grows with each step, and there are only so many nodes. -/
theorem Acyclic.exists_last (h : g.WellFormed) (hacyclic : g.Acyclic) (hn : g.node? n = some node) :
    ∃ steps last, g.downstream? steps node.output = some last ∧ g.peer? last = none := by
  obtain ⟨rank, hrank⟩ := exists_rank h
  have hbound : ∀ m node, g.node? m = some node → rank m ≤ g.nodeIds.toFinset.sup rank :=
    fun m node hm => Finset.le_sup (List.mem_toFinset.mpr (mem_nodeIds.mpr ⟨node, hm⟩))
  induction hleft : g.nodeIds.toFinset.sup rank - rank n using Nat.strong_induction_on
    generalizing n node with
  | _ left ih =>
    cases hp : g.peer? node.output with
    | none => exact ⟨0, node.output, rfl, hp⟩
    | some input =>
      obtain ⟨m, role, node', hnext, hm, hfeeds⟩ := consumerNode?_of_peer? h hn hp
      have hlt := hrank n m (hacyclic.not_cyclic n) hfeeds
      have hle := hbound m node' hm
      obtain ⟨steps, last, hwalk, hlast⟩ := ih _ (by omega) hm rfl
      exact ⟨steps + 1, last, by rw [downstream?, hnext, Option.bind_some, hwalk], hlast⟩

end Graph

namespace Workspace

variable {ws ws' : Workspace}

/-! ## Edits other than attaching -/

/-- The workspaces that edits lead to without attaching a link, also if some edits are refused. -/
inductive Unattached : Workspace → Prop
  | empty : Unattached empty
  | done {ws ws' : Workspace} {action : Action} (h : Unattached ws)
      (hattach : ∀ output input, action ≠ .attach output input)
      (hok : action.edit ws = .ok () ws') : Unattached ws'
  | refused {ws ws' : Workspace} {action : Action} {e : EditError} (h : Unattached ws)
      (hrefused : action.edit ws = .error e ws') : Unattached ws'
  | clear {ws ws' : Workspace} (h : Unattached ws) (hok : clear ws = .ok () ws') : Unattached ws'

theorem Unattached.visited (h : ws.Unattached) : ws.Visited := by
  induction h with
  | empty => exact .empty
  | done _ _ hok ih => exact ih.done hok
  | refused _ hrefused ih => exact ih.refused hrefused
  | clear _ hok ih => exact ih.clear hok

theorem acyclic_of_outline (h : ws'.graph.outline = ws.graph.outline)
    (hacyclic : ws.graph.Acyclic) : ws'.graph.Acyclic := by
  refine hacyclic.of_feeds fun p c hf => ?_
  rwa [Graph.feeds_congr h] at hf

theorem connect_acyclic (h : ws.Sound) {o i : SocketId} (hok : connect o i ws = .ok () ws')
    (hacyclic : ws.graph.Acyclic) : ws'.graph.Acyclic := by
  obtain ⟨p, c, z, hl, hcycle, _, hm⟩ := connect_ok h.graph hok
  refine (hl.acyclic hacyclic hcycle).of_feeds fun a b hf => ?_
  rwa [Graph.feeds_congr hm.sameShape.outline] at hf

theorem renameType_acyclic (h : ws.Sound) {old new candidate : String}
    (hok : renameType old candidate ws = .ok new ws') (hacyclic : ws.graph.Acyclic) :
    ws'.graph.Acyclic := by
  rcases renameType_ok h.graph hok with ⟨_, rfl⟩ | ⟨registry, _, _, hr, rfl⟩
  · exact hacyclic
  · have hretry := retryUntyped_rebuiltFrom (hr.sound_workspace h)
    exact hretry.acyclic (acyclic_of_outline hr.outline hacyclic)

theorem Action.run_acyclic {action : Action} (h : ws.Sound)
    (hattach : ∀ output input, action ≠ .attach output input) (hrun : action.run ws = some ws')
    (hacyclic : ws.graph.Acyclic) : ws'.graph.Acyclic := by
  cases action.run_outcome h hrun with
  | rebuilt hb => exact hb.acyclic hacyclic
  | connected hok => exact connect_acyclic h hok hacyclic
  | typeRenamed hok => exact renameType_acyclic h hok hacyclic
  | ctorRenamed hok => exact acyclic_of_outline (renameCtor_ok hok).outline hacyclic
  | attached _ => exact absurd rfl (hattach _ _)
  | resolved => exact acyclic_of_outline (resolveAll_sameShape h).outline hacyclic

theorem Unattached.acyclic (h : ws.Unattached) : ws.graph.Acyclic := by
  induction h with
  | empty => exact Graph.empty_acyclic
  | done h hattach hok ih =>
    exact Action.run_acyclic h.visited.sound hattach ((Action.run_eq_some_iff _ _).mpr hok) ih
  | refused h hrefused ih =>
    rw [refused_graph h.visited.sound.graph hrefused]
    exact ih
  | clear _ hok _ =>
    cases hok
    exact Graph.empty_acyclic

theorem Unattached.runAll {actions : List Action} (h : ws.Unattached)
    (hattach : ∀ action ∈ actions, ∀ output input, action ≠ .attach output input)
    (hrun : ws.runAll actions = some ws') : ws'.Unattached :=
  runAll_kept (fun action hmem _ _ hws hstep =>
    hws.done (hattach action hmem) ((Action.run_eq_some_iff _ _).mp hstep)) h hrun

/-- Whatever edits lead to a workspace, its sockets and links are in their places.  If no link was
attached, no node leads to itself, and the walk downstream from any node comes to an end. -/
theorem topology_of_visited (h : ws.Visited) :
    ws.graph.InPlace ∧ (ws.Unattached → ws.graph.Acyclic ∧
      ∀ n node, ws.graph.node? n = some node → ∃ steps last,
        ws.graph.downstream? steps node.output = some last ∧ ws.graph.peer? last = none) := by
  have hgraph := h.sound.graph
  refine ⟨hgraph.inPlace, fun hunattached => ⟨hunattached.acyclic, fun n node hn => ?_⟩⟩
  exact hunattached.acyclic.exists_last hgraph hn

/-- A list in a list in a list.  The one in the middle loses an item, and the outer one gets one. -/
def shrunkLists : List Action :=
  [.addNode (.list 2), .addNode (.list 2), .addNode (.list 0), .connect 3 1, .connect 6 4,
    .setArity 1 1, .setArity 0 3]

/-- The walk from the innermost list takes two steps. -/
theorem topology_of_visited_shrunkLists :
    ∃ ws : Workspace, empty.runAll shrunkLists = some ws ∧ ws.Visited ∧ ws.Unattached ∧
      ws.graph.InPlace ∧ ws.graph.Acyclic ∧
      ∃ node, ws.graph.node? 2 = some node ∧ ws.graph.downstream? 2 node.output = some 0 ∧
        ∃ steps last, ws.graph.downstream? steps node.output = some last ∧
          ws.graph.peer? last = none := by
  have hrun : ((empty.runAll shrunkLists).any fun ws =>
      (ws.graph.node? 2).any fun node => ws.graph.downstream? 2 node.output = some 0) = true := by
    cbv
  simp only [Option.any_eq_true, decide_eq_true_eq] at hrun
  obtain ⟨ws, hws, node, hn, hwalk⟩ := hrun
  have hunattached : ws.Unattached := Unattached.empty.runAll (by simp [shrunkLists]) hws
  obtain ⟨hplace, hends⟩ := topology_of_visited hunattached.visited
  obtain ⟨hacyclic, hlast⟩ := hends hunattached
  exact ⟨ws, hws, hunattached.visited, hunattached, hplace, hacyclic, node, hn, hwalk,
    hlast 2 node hn⟩

end Workspace
end BlockGraph
