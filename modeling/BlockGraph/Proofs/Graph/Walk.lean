import BlockGraph.Proofs.Graph.Changes
import BlockGraph.Proofs.Graph.Component
import BlockGraph.Proofs.Workspace.Growth
import Mathlib.Data.Finset.Card

/-!
# Walking from socket to socket

`Graph.component` goes from node to node.  `Graph.walk?` has a queue of sockets.  Of a
socket that it has not met before it queues the other ends of the links, and of a node
that it has not met before it queues the sockets.  It keeps what it has met in two
sets, and nothing in its form says that it comes to an end.

`Walking` is the invariant of the walk: what is next to a socket that has been met has
been met or is in the queue.  With it the walk ends (`exists_walk?`), since every socket
in use is met once, and what it has met is what `Graph.component` finds.

The graph may have any links between sockets in use, as many at a socket as there are.
-/

namespace BlockGraph.Graph

variable {g g' : Graph} {a b o i s t : SocketId} {m n : NodeId} {node : Node}
  {nodes : Finset NodeId} {sockets : Finset SocketId} {queue seeds : List SocketId}

/-! ## Graphs with any links -/

def Live (g : Graph) (s : SocketId) : Prop :=
  ∃ n, g.owner? s = some n

/-- Links have numbers of their own and lead between sockets in use. -/
structure Anchored (g : Graph) : Prop where
  numbered : g.links.WellFormed
  ends : ∀ a b, g.Wired a b → g.Live a ∧ g.Live b

/-- Nodes and sockets agree about their places, and the links are anchored. -/
structure Housed (g : Graph) : Prop extends g.Anchored where
  places : g.unlinked.WellFormed

theorem WellFormed.housed (h : g.WellFormed) : g.Housed where
  numbered := h.links.numbered
  ends a b hw := by
    obtain ⟨m, hm⟩ := h.wired_output a b hw
    obtain ⟨n, k, hn⟩ := h.wired_input a b hw
    exact ⟨⟨m, owner?_eq_some_iff.mpr ⟨_, hm⟩⟩, ⟨n, owner?_eq_some_iff.mpr ⟨_, hn⟩⟩⟩
  places := h.unlinked

namespace Anchored

theorem grow (h : g.Anchored) {fresh : Socket} (hlinks : g'.links = g.links)
    (hsocket : ∀ t, g'.socket? t = if t = s then some fresh else g.socket? t) : g'.Anchored := by
  have hlive : ∀ t, g.Live t → g'.Live t := by
    rintro t ⟨n, ht⟩
    rw [Live, owner?, hsocket]
    split
    · exact ⟨fresh.node, rfl⟩
    · exact ⟨n, ht⟩
  refine ⟨hlinks ▸ h.numbered, fun a b hw => ?_⟩
  rw [Wired, hlinks] at hw
  exact (h.ends a b hw).imp (hlive a) (hlive b)

theorem withLinks (h : g.Anchored) {ls : Links} (hls : ls.WellFormed)
    (hsub : ls.newestFirst.Sublist g.links.newestFirst) : { g with links := ls }.Anchored :=
  ⟨hls, fun a b hw => h.ends a b (hsub.subset hw)⟩

theorem removeSocket (h : g.Anchored) (s : SocketId) : (g.removeSocket s).Anchored := by
  obtain ⟨hnumbered, _, hmem⟩ := Links.removeAt_spec h.numbered s
  have hlive : ∀ t, t ≠ s → g.Live t → (g.removeSocket s).Live t := by
    intro t ht hlive
    rw [Live, owner?, socket?_removeSocket, if_neg ht]
    exact hlive
  refine ⟨hnumbered, fun a b hw => ?_⟩
  obtain ⟨hw, ha, hb⟩ := (hmem ⟨a, b⟩).mp hw
  exact (h.ends a b hw).imp (hlive a ha) (hlive b hb)

theorem removeSockets (h : g.Anchored) (list : List SocketId) :
    (g.removeSockets list).2.Anchored := by
  induction list generalizing g with
  | nil => exact h
  | cons s rest ih => exact ih (h.removeSocket s)

end Anchored

/-! ## Changes

A change makes the same nodes and sockets whether there are links or not, so what it
does to them is known from graphs without links.
-/

theorem addInput_unlinked (g : Graph) (n : NodeId) (ty : Ty) :
    (g.unlinked.addInput n ty).map Prod.snd = (g.addInput n ty).map fun r => r.2.unlinked := by
  have hnode : g.unlinked.node? n = g.node? n := rfl
  rw [addInput, addInput, hnode]
  cases g.node? n <;> rfl

theorem popInput_unlinked (g : Graph) (n : NodeId) :
    (g.unlinked.popInput n).map Prod.snd = (g.popInput n).map fun r => r.2.unlinked := by
  have hnode : g.unlinked.node? n = g.node? n := rfl
  rw [popInput, popInput, hnode]
  cases g.node? n with
  | none => rfl
  | some node =>
    dsimp only
    cases node.inputs.getLast? <;> rfl

theorem removeSockets_unlinked (g : Graph) (list : List SocketId) :
    (g.unlinked.removeSockets list).2 = (g.removeSockets list).2.unlinked := by
  induction list generalizing g with
  | nil => rfl
  | cons s rest ih => exact ih (g.removeSocket s)

theorem removeNode_unlinked (g : Graph) (n : NodeId) :
    (g.unlinked.removeNode n).map Prod.snd = (g.removeNode n).map fun r => r.2.unlinked := by
  have hnode : g.unlinked.node? n = g.node? n := rfl
  rw [removeNode, removeNode, hnode]
  cases g.node? n with
  | none => rfl
  | some node =>
    exact congrArg Except.ok
      (removeSockets_unlinked { g with nodes := g.nodes.erase n } node.sockets)

namespace Housed

theorem insertNode (h : g.Housed) (block : Block) (ty : Ty) :
    (g.insertNode block ty).2.Housed := by
  obtain ⟨n, s, g', hg', hplaces, -, -, -, -, hsocket⟩ := insertNode_spec h.places block ty
  obtain rfl : (g.insertNode block ty).2.unlinked = g' := congrArg Prod.snd hg'
  exact ⟨h.grow rfl hsocket, hplaces⟩

theorem addInput (h : g.Housed) {ty : Ty} (hg : g.addInput n ty = .ok (s, g')) : g'.Housed := by
  have heq := addInput_unlinked g n ty
  cases hn : g.node? n with
  | none =>
    rw [Graph.addInput, hn] at hg
    cases hg
  | some node =>
    obtain ⟨s', g'', hg'', hplaces, -, -, -, hsocket⟩ := addInput_spec h.places hn ty
    rw [hg'', hg] at heq
    obtain rfl : g'' = g'.unlinked := Except.ok.inj heq
    have hlinks : g'.links = g.links := by
      rw [Graph.addInput, hn] at hg
      cases hg
      rfl
    exact ⟨h.grow hlinks hsocket, hplaces⟩

theorem popInput (h : g.Housed) {popped : Option (SocketId × Option SocketId)}
    (hg : g.popInput n = .ok (popped, g')) : g'.Housed := by
  have heq := popInput_unlinked g n
  have hpop := hg
  rw [Graph.popInput] at hpop
  cases hn : g.node? n with
  | none =>
    rw [hn] at hpop
    cases hpop
  | some node =>
    rw [hn] at hpop
    dsimp only at hpop
    cases hs : node.inputs.getLast? with
    | none =>
      rw [hs] at hpop
      cases hpop
      exact h
    | some s =>
      rw [hs] at hpop
      obtain ⟨g'', hg'', hplaces, -⟩ := popInput_spec h.places hn hs
      rw [hg'', hg] at heq
      obtain rfl : g'' = g'.unlinked := Except.ok.inj heq
      cases hpop
      exact ⟨Anchored.removeSocket (g := g.modifyNode n _) ⟨h.numbered, h.ends⟩ s, hplaces⟩

theorem removeNode (h : g.Housed) {removed : Node × List SocketId}
    (hg : g.removeNode n = .ok (removed, g')) : g'.Housed := by
  have heq := removeNode_unlinked g n
  have hremove := hg
  rw [Graph.removeNode] at hremove
  cases hn : g.node? n with
  | none =>
    rw [hn] at hremove
    cases hremove
  | some node =>
    rw [hn] at hremove
    obtain ⟨peers, g'', hg'', hplaces, -⟩ := removeNode_spec h.places hn
    rw [hg'', hg] at heq
    obtain rfl : g'' = g'.unlinked := Except.ok.inj heq
    cases hremove
    exact ⟨Anchored.removeSockets (g := { g with nodes := g.nodes.erase n })
      ⟨h.numbered, h.ends⟩ node.sockets, hplaces⟩

theorem wire (h : g.Housed) (ho : g.Live o) (hi : g.Live i) : (g.wire o i).Housed := by
  refine ⟨⟨Links.insert_wellFormed h.numbered _, fun a b hw => ?_⟩, h.places⟩
  rcases wired_wire.mp hw with ⟨rfl, rfl⟩ | hw
  · exact ⟨ho, hi⟩
  · exact h.ends a b hw

theorem unwire (h : g.Housed) (hg : g.unwire? o i = some g') : g'.Housed := by
  obtain ⟨k, hk, rfl⟩ := Option.map_eq_some_iff.mp hg
  obtain ⟨e, he, rfl⟩ := Option.map_eq_some_iff.mp hk
  have hused : ∀ j ∈ [e.1], j ∈ g.links.entries.map Prod.fst := fun j hj => by
    rw [List.mem_singleton.mp hj]
    exact List.mem_map.mpr ⟨e, List.mem_of_find?_eq_some he, rfl⟩
  have hone := List.nodup_singleton e.1
  exact ⟨h.withLinks (Links.removeAll_spec h.numbered hone hused).1
    (Links.removeAll_sublist h.numbered hone hused), h.places⟩

/-- Blocks, types and states play no part. -/
theorem congr (h : g.Housed) (hg : g'.outline = g.outline) : g'.Housed := by
  refine ⟨⟨links_congr hg ▸ h.numbered, fun a b hw => ?_⟩, ?_⟩
  · simpa only [Live, owner?_congr hg] using h.ends a b ((wired_congr hg).mp hw)
  · have hoffline : g'.unlinked.outline = g.unlinked.outline := congrArg unlinked hg
    exact (wellFormed_congr hoffline).mpr h.places

end Housed

/-- The graphs of workspaces that edits lead to, and what changes of a graph make of them.  A link
may be added between any two sockets in use. -/
inductive Obtained : Graph → Prop
  | workspace {ws : Workspace} (h : ws.Visited) : Obtained ws.graph
  | insertNode {g : Graph} (h : Obtained g) (block : Block) (ty : Ty) :
      Obtained (g.insertNode block ty).2
  | addInput {g g' : Graph} {n : NodeId} {ty : Ty} {s : SocketId} (h : Obtained g)
      (hg : g.addInput n ty = .ok (s, g')) : Obtained g'
  | popInput {g g' : Graph} {n : NodeId} {popped : Option (SocketId × Option SocketId)}
      (h : Obtained g) (hg : g.popInput n = .ok (popped, g')) : Obtained g'
  | removeNode {g g' : Graph} {n : NodeId} {removed : Node × List SocketId} (h : Obtained g)
      (hg : g.removeNode n = .ok (removed, g')) : Obtained g'
  | wire {g : Graph} {o i : SocketId} (h : Obtained g) (ho : g.Live o) (hi : g.Live i) :
      Obtained (g.wire o i)
  | unwire {g g' : Graph} {o i : SocketId} (h : Obtained g) (hg : g.unwire? o i = some g') :
      Obtained g'
  | relabel {g g' : Graph} (h : Obtained g) (hg : g'.outline = g.outline) : Obtained g'

theorem Obtained.housed (h : g.Obtained) : g.Housed := by
  induction h with
  | workspace h => exact h.sound.graph.housed
  | insertNode _ block ty ih => exact ih.insertNode block ty
  | addInput _ hg ih => exact ih.addInput hg
  | popInput _ hg ih => exact ih.popInput hg
  | removeNode _ hg ih => exact ih.removeNode hg
  | wire _ ho hi ih => exact ih.wire ho hi
  | unwire _ hg ih => exact ih.unwire hg
  | relabel _ hg ih => exact ih.congr hg

/-! ## Chains of sockets -/

/-- There is a link between the sockets, in one direction or the other, or they belong to one
node. -/
def Adjacent (g : Graph) (s t : SocketId) : Prop :=
  g.Wired s t ∨ g.Wired t s ∨ ∃ n, g.owner? s = some n ∧ g.owner? t = some n

/-- A chain of adjacent sockets leads from one socket to the other. -/
def Chained (g : Graph) : SocketId → SocketId → Prop :=
  Relation.ReflTransGen g.Adjacent

theorem Adjacent.live (h : g.Anchored) (hadj : g.Adjacent s t) : g.Live t := by
  rcases hadj with hw | hw | ⟨n, -, ht⟩
  · exact (h.ends s t hw).2
  · exact (h.ends t s hw).1
  · exact ⟨n, ht⟩

theorem Chained.connected (h : g.Anchored) (hc : g.Chained s t) (hs : g.owner? s = some m) :
    ∃ n, g.owner? t = some n ∧ g.Connected m n := by
  induction hc with
  | refl => exact ⟨m, hs, .refl g m⟩
  | @tail t u _ hadj ih =>
    obtain ⟨n, ht, hc⟩ := ih
    obtain ⟨k, hu⟩ := hadj.live h
    rcases hadj with hw | hw | ⟨n', ht', hu'⟩
    · exact ⟨k, hu, hc.tail ⟨t, u, ht, hu, .inl hw⟩⟩
    · exact ⟨k, hu, hc.tail ⟨t, u, ht, hu, .inr hw⟩⟩
    · cases ht.symm.trans ht'
      exact ⟨n, hu', hc⟩

theorem Connected.chained (hc : g.Connected m n) (hs : g.owner? s = some m)
    (ht : g.owner? t = some n) : g.Chained s t := by
  induction hc generalizing t with
  | refl => exact .single (.inr (.inr ⟨m, hs, ht⟩))
  | tail _ hl ih =>
    obtain ⟨a, b, ha, hb, hw⟩ := hl
    have hab : g.Adjacent a b := hw.elim .inl fun hw => .inr (.inl hw)
    exact ((ih ha).tail hab).tail (.inr (.inr ⟨_, hb, ht⟩))

theorem mem_component_sockets_iff_chained (h : g.Housed) :
    s ∈ (g.component seeds).sockets ↔ ∃ t ∈ seeds, g.Live t ∧ g.Chained t s := by
  rw [mem_component_sockets_of_places h.places]
  constructor
  · rintro ⟨n, hs, hn⟩
    obtain ⟨t, ht, m, hm, hc⟩ := (mem_component_nodes_of_places h.places).mp hn
    exact ⟨t, ht, ⟨m, hm⟩, hc.chained hm hs⟩
  · rintro ⟨t, ht, ⟨m, hm⟩, hc⟩
    obtain ⟨n, hs, hc⟩ := hc.connected h.toAnchored hm
    exact ⟨n, hs, (mem_component_nodes_of_places h.places).mpr ⟨t, ht, m, hm, hc⟩⟩

theorem mem_component_nodes_iff_owner (h : g.Housed) :
    n ∈ (g.component seeds).nodes ↔ ∃ s ∈ (g.component seeds).sockets, g.owner? s = some n := by
  simp only [mem_component_sockets_of_places h.places]
  constructor
  · intro hn
    obtain ⟨node, hnode⟩ := component_live hn
    have hs : g.owner? node.output = some n := owner?_output (g := g.unlinked) h.places hnode
    exact ⟨node.output, ⟨n, hs, hn⟩, hs⟩
  · rintro ⟨s, ⟨n', hs, hn'⟩, hs'⟩
    cases hs.symm.trans hs'
    exact hn'

/-! ## The walk -/

/-- Takes sockets from a queue, and queues what is next to those that are met for the first time.
`nodes` and `sockets` are what has been met. -/
def walk? (g : Graph) (nodes : Finset NodeId) (sockets : Finset SocketId) :
    List SocketId → Option (Finset NodeId × Finset SocketId)
  | [] => some (nodes, sockets)
  | s :: queue =>
    match g.socket? s with
    | none => g |>.walk? nodes sockets queue
    | some socket =>
      if s ∈ sockets then g |>.walk? nodes sockets queue
      else
        let siblings :=
          if socket.node ∈ nodes then [] else (g.node? socket.node).elim [] Node.sockets
        g |>.walk? (insert socket.node nodes) (insert s sockets)
          (queue ++ siblings ++ g.neighbours s)
partial_fixpoint

/-- What is next to a socket that has been met has been met or is in the queue, and all of this
hangs together with the seeds. -/
structure Walking (g : Graph) (seeds : List SocketId) (nodes : Finset NodeId)
    (sockets : Finset SocketId) (queue : List SocketId) : Prop where
  seeded : ∀ s ∈ seeds, g.Live s → s ∈ sockets ∨ s ∈ queue
  live : ∀ s ∈ sockets, g.Live s
  chained : ∀ s, s ∈ sockets ∨ s ∈ queue → g.Live s → ∃ t ∈ seeds, g.Live t ∧ g.Chained t s
  owners : ∀ n, n ∈ nodes ↔ ∃ s ∈ sockets, g.owner? s = some n
  closed : ∀ s ∈ sockets, ∀ t, g.Adjacent s t → t ∈ sockets ∨ t ∈ queue

namespace Walking

theorem start (g : Graph) (seeds : List SocketId) : g.Walking seeds ∅ ∅ seeds where
  seeded _ hs _ := .inr hs
  live _ hs := absurd hs (Finset.notMem_empty _)
  chained s hs hlive := ⟨s, hs.resolve_left (Finset.notMem_empty s), hlive, .refl⟩
  owners n := by simp
  closed _ hs := absurd hs (Finset.notMem_empty _)

theorem skip (hg : g.Anchored) (h : g.Walking seeds nodes sockets (s :: queue))
    (hs : g.Live s → s ∈ sockets) : g.Walking seeds nodes sockets queue := by
  have hdrop : ∀ t, g.Live t → t ∈ sockets ∨ t ∈ s :: queue → t ∈ sockets ∨ t ∈ queue := by
    rintro t hlive (ht | ht)
    · exact .inl ht
    · rcases List.mem_cons.mp ht with rfl | ht
      · exact .inl (hs hlive)
      · exact .inr ht
  exact ⟨fun t ht hlive => hdrop t hlive (h.seeded t ht hlive), h.live,
    fun t ht => h.chained t (ht.imp_right (List.mem_cons_of_mem s)), h.owners,
    fun t ht u hadj => hdrop u (hadj.live hg) (h.closed t ht u hadj)⟩

/-- The sockets of a node are queued when the first of them is met. -/
theorem sibling (hg : g.Housed) (h : g.Walking seeds nodes sockets (s :: queue))
    (hs : g.owner? s = some n) (ht : g.owner? t = some n) :
    t ∈ insert s sockets ∨
      t ∈ queue ++ if n ∈ nodes then [] else (g.node? n).elim [] Node.sockets := by
  split
  · next hn =>
    obtain ⟨u, hu, hun⟩ := (h.owners n).mp hn
    rcases h.closed u hu t (.inr (.inr ⟨n, hun, ht⟩)) with hmem | hmem
    · exact .inl (Finset.mem_insert_of_mem hmem)
    · rcases List.mem_cons.mp hmem with rfl | hmem
      · exact .inl (Finset.mem_insert_self t sockets)
      · exact .inr (List.mem_append_left _ hmem)
  · obtain ⟨node, hnode, hmem⟩ := owner?_node hg.places ht
    rw [show g.node? n = some node from hnode]
    exact .inr (List.mem_append_right _ hmem)

/-- Only what is next to the socket is queued. -/
theorem adjacent_of_queued (hg : g.Housed) (hs : g.owner? s = some n)
    (ht : t ∈ (if n ∈ nodes then [] else (g.node? n).elim [] Node.sockets) ++ g.neighbours s) :
    g.Adjacent s t := by
  rcases List.mem_append.mp ht with ht | ht
  · split at ht
    · exact absurd ht List.not_mem_nil
    · obtain ⟨node, hnode, -⟩ := owner?_node hg.places hs
      rw [show g.node? n = some node from hnode] at ht
      exact .inr (.inr ⟨n, hs, (mem_sockets_iff hg.places hnode).mp ht⟩)
  · exact (mem_neighbours.mp ht).elim .inl fun hw => .inr (.inl hw)

theorem visit (hg : g.Housed) (h : g.Walking seeds nodes sockets (s :: queue))
    (hs : g.owner? s = some n) :
    g.Walking seeds (insert n nodes) (insert s sockets)
      (queue ++ (if n ∈ nodes then [] else (g.node? n).elim [] Node.sockets) ++
        g.neighbours s) := by
  have hkeep : ∀ t, t ∈ sockets ∨ t ∈ s :: queue → ∀ more, t ∈ insert s sockets ∨
      t ∈ queue ++ more := by
    rintro t (ht | ht) more
    · exact .inl (Finset.mem_insert_of_mem ht)
    · rcases List.mem_cons.mp ht with rfl | ht
      · exact .inl (Finset.mem_insert_self t sockets)
      · exact .inr (List.mem_append_left _ ht)
  have hchain := h.chained s (.inr List.mem_cons_self) ⟨n, hs⟩
  rw [List.append_assoc]
  refine ⟨fun t ht hlive => hkeep t (h.seeded t ht hlive) _, fun t ht => ?_, fun t ht hlive => ?_,
    fun k => ?_, fun t ht u hadj => ?_⟩
  · rcases Finset.mem_insert.mp ht with rfl | ht
    · exact ⟨n, hs⟩
    · exact h.live t ht
  · rcases ht with ht | ht
    · rcases Finset.mem_insert.mp ht with rfl | ht
      · exact hchain
      · exact h.chained t (.inl ht) hlive
    · rcases List.mem_append.mp ht with ht | ht
      · exact h.chained t (.inr (List.mem_cons_of_mem s ht)) hlive
      · obtain ⟨seed, hseed, hl, hc⟩ := hchain
        exact ⟨seed, hseed, hl, hc.tail (adjacent_of_queued hg hs ht)⟩
  · rw [Finset.mem_insert, h.owners]
    constructor
    · rintro (rfl | ⟨t, ht, htk⟩)
      · exact ⟨s, Finset.mem_insert_self s sockets, hs⟩
      · exact ⟨t, Finset.mem_insert_of_mem ht, htk⟩
    · rintro ⟨t, ht, htk⟩
      rcases Finset.mem_insert.mp ht with rfl | ht
      · exact .inl (Option.some_inj.mp (htk.symm.trans hs))
      · exact .inr ⟨t, ht, htk⟩
  · rcases Finset.mem_insert.mp ht with rfl | ht
    · rw [← List.append_assoc]
      rcases hadj with hw | hw | ⟨k, htk, huk⟩
      · exact .inr (List.mem_append_right _ (mem_neighbours.mpr (.inl hw)))
      · exact .inr (List.mem_append_right _ (mem_neighbours.mpr (.inr hw)))
      · cases htk.symm.trans hs
        exact (h.sibling hg hs huk).imp_right (List.mem_append_left _)
    · exact hkeep u (h.closed t ht u hadj) _

/-- At the end of the walk what has been met is what hangs together with the seeds. -/
theorem mem_iff_chained (h : g.Walking seeds nodes sockets []) :
    s ∈ sockets ↔ ∃ t ∈ seeds, g.Live t ∧ g.Chained t s := by
  constructor
  · exact fun hs => h.chained s (.inl hs) (h.live s hs)
  · rintro ⟨t, ht, hlive, hc⟩
    induction hc with
    | refl => exact (h.seeded t ht hlive).resolve_right List.not_mem_nil
    | tail _ hadj ih => exact (h.closed _ ih _ hadj).resolve_right List.not_mem_nil

end Walking

theorem walk?_skip (hs : g.Live s → s ∈ sockets) :
    g.walk? nodes sockets (s :: queue) = g.walk? nodes sockets queue := by
  rw [walk?]
  cases hsocket : g.socket? s with
  | none => rfl
  | some socket => exact if_pos (hs ⟨socket.node, owner?_of_socket? hsocket⟩)

theorem walk?_visit (hs : g.owner? s = some n) (hnew : s ∉ sockets) :
    g.walk? nodes sockets (s :: queue) = g.walk? (insert n nodes) (insert s sockets)
      (queue ++ (if n ∈ nodes then [] else (g.node? n).elim [] Node.sockets) ++
        g.neighbours s) := by
  obtain ⟨socket, hsocket, rfl⟩ := Option.map_eq_some_iff.mp hs
  rw [walk?, hsocket]
  exact if_neg hnew

/-- The walk ends.  A socket that is met for the first time is one less to be met, and any other
makes the queue shorter. -/
theorem exists_walk? (hg : g.Housed) (h : g.Walking seeds nodes sockets queue) :
    ∃ met, g.walk? nodes sockets queue = some met ∧ g.Walking seeds met.1 met.2 [] := by
  induction hk : (g.sockets.keys.toFinset \ sockets).card using Nat.strong_induction_on
    generalizing nodes sockets queue with
  | _ k ih =>
    induction queue with
    | nil => exact ⟨(nodes, sockets), by rw [walk?], h⟩
    | cons s queue ihqueue =>
      by_cases hs : g.Live s → s ∈ sockets
      · rw [walk?_skip hs]
        exact ihqueue (h.skip hg.toAnchored hs)
      · obtain ⟨⟨n, hn⟩, hnew⟩ := Classical.not_imp.mp hs
        obtain ⟨socket, hsocket, -⟩ := Option.map_eq_some_iff.mp hn
        have hleft : s ∈ g.sockets.keys.toFinset \ sockets :=
          Finset.mem_sdiff.mpr ⟨List.mem_toFinset.mpr (Slots.mem_keys_of_get? hsocket), hnew⟩
        rw [walk?_visit hn hnew]
        refine ih _ ?_ (h.visit hg hn) rfl
        rw [← hk, Finset.sdiff_insert]
        exact Finset.card_erase_lt_of_mem hleft

/-! ## Components -/

theorem Housed.walk?_eq (h : g.Housed) (seeds : List SocketId) :
    g.walk? ∅ ∅ seeds =
      some ((g.component seeds).nodes.toFinset, (g.component seeds).sockets.toFinset) := by
  obtain ⟨⟨nodes, sockets⟩, hwalk, hend⟩ := exists_walk? h (Walking.start g seeds)
  have hsockets : ∀ s, s ∈ sockets ↔ s ∈ (g.component seeds).sockets := fun s => by
    rw [hend.mem_iff_chained, mem_component_sockets_iff_chained h]
  rw [hwalk, Option.some_inj, Prod.mk.injEq]
  refine ⟨Finset.ext fun n => ?_, Finset.ext fun s => ?_⟩
  · rw [hend.owners, List.mem_toFinset, mem_component_nodes_iff_owner h]
    exact exists_congr fun s => and_congr_left' (hsockets s)
  · rw [List.mem_toFinset, hsockets]

theorem Housed.mem_component_singleton (h : g.Housed) (hs : g.owner? s = some m) :
    n ∈ (g.component [s]).nodes ↔ g.Connected m n := by
  simp [mem_component_nodes_of_places h.places, hs]

theorem Housed.component_ext (h : g.Housed) {seeds' : List SocketId}
    (hmem : ∀ n, n ∈ (g.component seeds).nodes ↔ n ∈ (g.component seeds').nodes) :
    g.component seeds = g.component seeds' := by
  have hsockets : (g.component seeds).sockets = (g.component seeds').sockets := by
    refine congrArg (List.map Prod.fst) (List.filter_congr fun e he => decide_eq_decide.mpr ?_)
    have howner : g.owner? e.1 = some e.2.node :=
      owner?_of_socket? ((Slots.mem_entries_iff h.places.sockets).mp he)
    obtain ⟨node, hnode, -⟩ := owner?_node h.places howner
    have hid : e.2.node ∈ g.nodeIds := mem_nodeIds.mpr ⟨node, hnode⟩
    have hn := hmem e.2.node
    rwa [component, component, List.mem_filter, List.mem_filter, decide_eq_true_iff,
      decide_eq_true_iff, and_iff_right hid, and_iff_right hid] at hn
  exact congrArg₂ Component.mk (component_nodes_ext hmem) hsockets

/-- The walk ends, and what it meets is the component of the seeds: the sockets to which a chain of
links and sockets at one node leads from a seed in use, and the nodes that they belong to.  A node
is in it with all its sockets, and the components of two sockets are equal or have nothing in
common. -/
theorem walk_meets_component (h : g.Obtained) (seeds : List SocketId) :
    g.walk? ∅ ∅ seeds =
        some ((g.component seeds).nodes.toFinset, (g.component seeds).sockets.toFinset) ∧
      (∀ s, s ∈ (g.component seeds).sockets ↔ ∃ t ∈ seeds, g.Live t ∧ g.Chained t s) ∧
      (∀ n, n ∈ (g.component seeds).nodes ↔
        ∃ s ∈ (g.component seeds).sockets, g.owner? s = some n) ∧
      (∀ n ∈ (g.component seeds).nodes, ∃ node, g.node? n = some node ∧
        ∀ s ∈ node.sockets, s ∈ (g.component seeds).sockets) ∧
      ∀ a b, g.Live a → g.Live b → g.component [a] = g.component [b] ∨
        (g.component [a]).nodes.Disjoint (g.component [b]).nodes ∧
          (g.component [a]).sockets.Disjoint (g.component [b]).sockets := by
  have hg := h.housed
  refine ⟨hg.walk?_eq seeds, fun s => mem_component_sockets_iff_chained hg,
    fun n => mem_component_nodes_iff_owner hg, fun n hn => ?_, fun a b ha hb => ?_⟩
  · obtain ⟨node, hnode⟩ := component_live hn
    exact ⟨node, hnode, fun s hs => (mem_component_sockets_of_places hg.places).mpr
      ⟨n, (mem_sockets_iff hg.places hnode).mp hs, hn⟩⟩
  · obtain ⟨m, hm⟩ := ha
    obtain ⟨n, hn⟩ := hb
    have hcomponent : ∀ {c k}, g.owner? c = some k → ∀ l, l ∈ (g.component [c]).nodes ↔
        g.Connected k l := fun hc _ => hg.mem_component_singleton hc
    by_cases hc : g.Connected m n
    · refine .inl (hg.component_ext fun k => ?_)
      rw [hcomponent hm, hcomponent hn]
      exact ⟨hc.symm.trans, hc.trans⟩
    · have hnodes : (g.component [a]).nodes.Disjoint (g.component [b]).nodes := fun k hk hk' =>
        hc (((hcomponent hm k).mp hk).trans ((hcomponent hn k).mp hk').symm)
      refine .inr ⟨hnodes, fun s hs hs' => ?_⟩
      obtain ⟨k, hk, hmem⟩ := (mem_component_sockets_of_places hg.places).mp hs
      obtain ⟨k', hk', hmem'⟩ := (mem_component_sockets_of_places hg.places).mp hs'
      cases hk.symm.trans hk'
      exact hnodes hmem hmem'

/-- The output of one node is linked to the input of the next, and there is a third. -/
theorem walk_meets_component_pair :
    ∃ g : Graph, g.Obtained ∧ g.walk? ∅ ∅ [0, 9] = some ([0, 1].toFinset, [0, 1, 3].toFinset) ∧
      g.component [0] = g.component [3] := by
  have hnodes := (((Obtained.workspace .empty).insertNode (.list 0) (.var 0)).insertNode
    (.list 1) (.var 1)).insertNode (.list 0) (.var 2)
  have hinput := @Obtained.addInput _ _ 1 (.var 3) 3 hnodes rfl
  have hg := @Obtained.wire _ 0 3 hinput ⟨0, rfl⟩ ⟨1, rfl⟩
  obtain ⟨hwalk, -, -, -, -⟩ := walk_meets_component hg [0, 9]
  refine ⟨_, hg, hwalk.trans ?_, by cbv⟩
  congr 2
  · congr 1
    cbv
  · congr 1
    cbv

end BlockGraph.Graph
