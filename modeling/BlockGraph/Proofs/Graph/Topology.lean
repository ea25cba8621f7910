import BlockGraph.Proofs.Graph.Numbering
import BlockGraph.Workspace.Nodes
import Mathlib.Data.List.Nodup

/-!
# Well-formed graphs

A graph stores what belongs together in several places: a node lists its sockets
and a socket names its node, and a link names two sockets.  `Graph.WellFormed`
says that these agree, that links lead from outputs to inputs, and that no socket
has two links.

Later proofs look at a graph only through `node?`, `socket?` and two relations:
`At`, the place of a socket, and `Wired`, the links.  For each change of a graph
this file says what it does to them, and that it keeps the graph well-formed.
-/

namespace BlockGraph

def Node.bare (node : Node) : Node :=
  { node with block := .list 0, signature := none, untyped := none }

def Socket.bare (socket : Socket) : Socket :=
  { socket with ty := .var 0, state := .unbound }

/-- No socket has two links, neither two of a kind nor one of each. -/
structure Links.Simple (ls : Links) : Prop where
  numbered : ls.WellFormed
  nodup : ls.newestFirst.Nodup
  input_unique : ∀ a b b', ⟨a, b⟩ ∈ ls.newestFirst → ⟨a, b'⟩ ∈ ls.newestFirst → b = b'
  output_unique : ∀ a a' b, ⟨a, b⟩ ∈ ls.newestFirst → ⟨a', b⟩ ∈ ls.newestFirst → a = a'
  ends_differ : ∀ a b c, ⟨a, b⟩ ∈ ls.newestFirst → ⟨b, c⟩ ∉ ls.newestFirst

theorem Links.Simple.sublist {ls ls' : Links} (h : ls.Simple) (hls : ls'.WellFormed)
    (hsub : ls'.newestFirst.Sublist ls.newestFirst) : ls'.Simple where
  numbered := hls
  nodup := h.nodup.sublist hsub
  input_unique a b b' hb hb' := h.input_unique a b b' (hsub.subset hb) (hsub.subset hb')
  output_unique a a' b ha ha' := h.output_unique a a' b (hsub.subset ha) (hsub.subset ha')
  ends_differ a b c hab hbc := h.ends_differ a b c (hsub.subset hab) (hsub.subset hbc)

namespace Graph

variable {g g' : Graph} {a b s t : SocketId} {m n : NodeId} {role : Role} {node : Node}

def Wired (g : Graph) (a b : SocketId) : Prop :=
  (⟨a, b⟩ : Link) ∈ g.links.newestFirst

def At (g : Graph) (s : SocketId) (n : NodeId) (role : Role) : Prop :=
  ∃ socket, g.socket? s = some socket ∧ socket.node = n ∧ socket.role = role

structure WellFormed (g : Graph) : Prop where
  nodes : g.nodes.WellFormed
  sockets : g.sockets.WellFormed
  links : g.links.Simple
  place : ∀ n role s, g.socketAt? n role = some s ↔ g.At s n role
  wired_output : ∀ a b, g.Wired a b → ∃ n, g.At a n .output
  wired_input : ∀ a b, g.Wired a b → ∃ n k, g.At b n (.input k)

theorem empty_wellFormed : ({} : Graph).WellFormed where
  nodes := Slots.empty_wellFormed
  sockets := Slots.empty_wellFormed
  links := ⟨Links.empty_wellFormed, .nil, fun _ _ _ h => absurd h List.not_mem_nil,
    fun _ _ _ h => absurd h List.not_mem_nil, fun _ _ _ h => absurd h List.not_mem_nil⟩
  place n role s := by
    have hat : ¬ ({} : Graph).At s n role :=
      fun ⟨_, h, _⟩ => absurd h (by simp [socket?, Slots.get?])
    cases role <;> simp [socketAt?, node?, Slots.get?, hat]
  wired_output _ _ h := absurd h List.not_mem_nil
  wired_input _ _ h := absurd h List.not_mem_nil

/-! ## Places -/

theorem At.unique {role' : Role} (h : g.At s n role) (h' : g.At s m role') :
    n = m ∧ role = role' := by
  obtain ⟨socket, hs, rfl, rfl⟩ := h
  obtain ⟨socket', hs', rfl, rfl⟩ := h'
  rw [hs] at hs'
  cases hs'
  exact ⟨rfl, rfl⟩

theorem owner?_of_socket? {socket : Socket} (hs : g.socket? s = some socket) :
    g.owner? s = some socket.node :=
  Option.map_eq_some_iff.mpr ⟨socket, hs, rfl⟩

theorem owner?_eq_some_iff : g.owner? s = some n ↔ ∃ role, g.At s n role := by
  constructor
  · intro h
    obtain ⟨socket, hs, rfl⟩ := Option.map_eq_some_iff.mp h
    exact ⟨socket.role, socket, hs, rfl, rfl⟩
  · rintro ⟨role, socket, hs, rfl, _⟩
    exact owner?_of_socket? hs

theorem mem_neighbours : t ∈ g.neighbours s ↔ g.Wired s t ∨ g.Wired t s := by
  have houtgoing : t ∈ g.links.inputsOf s ↔ g.Wired s t := by
    rw [Links.inputsOf, List.mem_filterMap, Wired, Links.mem_newestFirst]
    constructor
    · rintro ⟨⟨k, l⟩, hmem, hl⟩
      obtain ⟨rfl, rfl⟩ : l.output = s ∧ l.input = t := by simpa using hl
      exact ⟨k, hmem⟩
    · rintro ⟨k, hmem⟩
      exact ⟨_, hmem, by simp⟩
  have hincoming : t ∈ g.links.outputsOf s ↔ g.Wired t s := by
    rw [Links.outputsOf, List.mem_filterMap, Wired, Links.mem_newestFirst]
    constructor
    · rintro ⟨⟨k, l⟩, hmem, hl⟩
      obtain ⟨rfl, rfl⟩ : l.input = s ∧ l.output = t := by simpa using hl
      exact ⟨k, hmem⟩
    · rintro ⟨k, hmem⟩
      exact ⟨_, hmem, by simp⟩
  rw [neighbours, List.mem_append, houtgoing, hincoming]

theorem mem_nodeIds : n ∈ g.nodeIds ↔ ∃ node, g.node? n = some node :=
  Slots.mem_keys_iff

theorem At.node? (h : g.WellFormed) (hs : g.At s n role) : ∃ node, g.node? n = some node := by
  have hplace := (h.place n role s).mpr hs
  cases hn : g.node? n with
  | some node => exact ⟨node, rfl⟩
  | none => cases role <;> simp [socketAt?, hn] at hplace

theorem At.output_eq (h : g.WellFormed) (hn : g.node? n = some node) :
    g.At s n .output ↔ s = node.output := by
  rw [← h.place, socketAt?, hn, Option.map_some, Option.some_inj, eq_comm]

theorem At.input_eq (h : g.WellFormed) (hn : g.node? n = some node) {k : Nat} :
    g.At s n (.input k) ↔ node.inputs[k]? = some s := by
  rw [← h.place, socketAt?, hn, Option.bind_some]

theorem mem_inputs_iff (h : g.WellFormed) (hn : g.node? n = some node) :
    s ∈ node.inputs ↔ ∃ k, g.At s n (.input k) := by
  rw [List.mem_iff_getElem?]
  exact exists_congr fun k => (At.input_eq h hn).symm

theorem mem_sockets_iff (h : g.WellFormed) (hn : g.node? n = some node) :
    s ∈ node.sockets ↔ g.owner? s = some n := by
  rw [owner?_eq_some_iff, Node.sockets, List.mem_append, List.mem_singleton, mem_inputs_iff h hn,
    ← At.output_eq h hn]
  constructor
  · rintro (⟨k, hk⟩ | ho)
    · exact ⟨_, hk⟩
    · exact ⟨_, ho⟩
  · rintro ⟨role, hrole⟩
    cases role with
    | input k => exact .inl ⟨k, hrole⟩
    | output => exact .inr hrole

theorem sockets_nodup (h : g.WellFormed) (hn : g.node? n = some node) : node.sockets.Nodup := by
  rw [Node.sockets, List.nodup_append]
  refine ⟨?_, List.nodup_singleton _, fun s hs t ht hst => ?_⟩
  · rw [List.nodup_iff_getElem?_ne_getElem?]
    intro i j hij hj heq
    obtain ⟨s, hs⟩ : ∃ s, node.inputs[j]? = some s := ⟨_, List.getElem?_eq_getElem hj⟩
    have hplace := (At.input_eq h hn).mpr (heq.trans hs)
    have hrole := (hplace.unique ((At.input_eq h hn).mpr hs)).2
    cases hrole
    exact Nat.lt_irrefl _ hij
  · rw [List.mem_singleton.mp ht] at hst
    obtain ⟨k, hk⟩ := (mem_inputs_iff h hn).mp hs
    have hrole := (hk.unique ((At.output_eq h hn).mpr hst)).2
    cases hrole

theorem owner?_node (h : g.WellFormed) (hs : g.owner? s = some n) :
    ∃ node, g.node? n = some node ∧ s ∈ node.sockets := by
  obtain ⟨role, hat⟩ := owner?_eq_some_iff.mp hs
  obtain ⟨node, hn⟩ := hat.node? h
  exact ⟨node, hn, (mem_sockets_iff h hn).mpr hs⟩

/-! ## Links -/

theorem Wired.roles (h : g.WellFormed) (hw : g.Wired a b) (ha : g.At a n role) :
    role = .output := by
  obtain ⟨m, hm⟩ := h.wired_output a b hw
  exact (ha.unique hm).2

theorem not_wired_input (h : g.WellFormed) {k : Nat} (ha : g.At a n (.input k)) : ¬ g.Wired a b :=
  fun hw => nomatch hw.roles h ha

theorem not_wired_output (h : g.WellFormed) (hb : g.At b n .output) : ¬ g.Wired a b := by
  intro hw
  obtain ⟨m, k, hm⟩ := h.wired_input a b hw
  exact nomatch (hb.unique hm).2

theorem peer?_eq_some_iff (h : g.links.Simple) :
    g.peer? s = some t ↔ g.Wired s t ∨ g.Wired t s := by
  have hunique : ∀ t', g.Wired s t ∨ g.Wired t s → g.Wired s t' ∨ g.Wired t' s → t = t' := by
    rintro t' (ht | ht) (ht' | ht')
    · exact h.input_unique s t t' ht ht'
    · exact absurd ht (h.ends_differ t' s t ht')
    · exact absurd ht' (h.ends_differ t s t' ht)
    · exact h.output_unique t t' s ht ht'
  rw [peer?, ← mem_neighbours]
  cases hlist : g.neighbours s with
  | nil => simp
  | cons t' rest =>
    have ht' := mem_neighbours.mp (hlist ▸ List.mem_cons_self : t' ∈ g.neighbours s)
    rw [List.head?_cons, Option.some_inj]
    constructor
    · rintro rfl
      exact List.mem_cons_self
    · intro ht
      rw [← hlist, mem_neighbours] at ht
      exact (hunique t' ht ht').symm

theorem peer?_eq_none_iff (h : g.links.Simple) :
    g.peer? s = none ↔ ∀ t, ¬ g.Wired s t ∧ ¬ g.Wired t s := by
  rw [Option.eq_none_iff_forall_ne_some]
  exact forall_congr' fun t => by rw [ne_eq, peer?_eq_some_iff h, not_or]

theorem peer?_comm (h : g.links.Simple) : g.peer? s = some t ↔ g.peer? t = some s := by
  rw [peer?_eq_some_iff h, peer?_eq_some_iff h, or_comm]

theorem peer?_congr (h : g.links.Simple) (h' : g'.links.Simple)
    (hs : ∀ t, (g'.Wired s t ∨ g'.Wired t s) ↔ (g.Wired s t ∨ g.Wired t s)) :
    g'.peer? s = g.peer? s :=
  Option.ext fun t => by rw [peer?_eq_some_iff h, peer?_eq_some_iff h', hs]

theorem peer?_owner (h : g.WellFormed) (hp : g.peer? s = some t) : ∃ n, g.owner? t = some n := by
  rcases (peer?_eq_some_iff h.links).mp hp with hw | hw
  · obtain ⟨n, k, hn⟩ := h.wired_input s t hw
    exact ⟨n, owner?_eq_some_iff.mpr ⟨_, hn⟩⟩
  · obtain ⟨n, hn⟩ := h.wired_output t s hw
    exact ⟨n, owner?_eq_some_iff.mpr ⟨_, hn⟩⟩

theorem mem_wires (h : g.WellFormed) : (⟨a, b⟩ : Link) ∈ g.wires ↔ g.Wired a b :=
  Links.mem_byNumber h.links.numbered

/-! ## How a graph hangs together

Components, the order of nodes and well-formedness depend neither on types and
states nor on what the nodes stand for.  Two graphs with one outline agree in
all of these.
-/

/-- The graph without blocks, types and states. -/
def outline (g : Graph) : Graph :=
  { g with nodes := g.nodes.map Node.bare, sockets := g.sockets.map Socket.bare }

theorem node?_outline (g : Graph) (n : NodeId) : g.outline.node? n = (g.node? n).map Node.bare :=
  Slots.get?_map ..

theorem socket?_outline (g : Graph) (s : SocketId) :
    g.outline.socket? s = (g.socket? s).map Socket.bare :=
  Slots.get?_map ..

theorem owner?_outline (g : Graph) (s : SocketId) : g.outline.owner? s = g.owner? s := by
  rw [owner?, socket?_outline, Option.map_map]
  rfl

theorem at_outline : g.outline.At s n role ↔ g.At s n role := by
  rw [At, socket?_outline]
  constructor
  · rintro ⟨bare, hbare, hn, hrole⟩
    obtain ⟨socket, hs, rfl⟩ := Option.map_eq_some_iff.mp hbare
    exact ⟨socket, hs, hn, hrole⟩
  · rintro ⟨socket, hs, hn, hrole⟩
    exact ⟨socket.bare, by rw [hs, Option.map_some], hn, hrole⟩

theorem socketAt?_outline (g : Graph) (n : NodeId) (role : Role) :
    g.outline.socketAt? n role = g.socketAt? n role := by
  cases role with
  | output =>
    rw [socketAt?, node?_outline, Option.map_map]
    rfl
  | input k =>
    rw [socketAt?, node?_outline, Option.bind_map]
    rfl

theorem nodeIds_outline (g : Graph) : g.outline.nodeIds = g.nodeIds :=
  Slots.keys_map ..

theorem wellFormed_outline : g.outline.WellFormed ↔ g.WellFormed := by
  constructor <;> intro h
  · refine ⟨?_, ?_, h.links, fun n role s => ?_, fun a b hw => ?_, fun a b hw => ?_⟩
    · have hnodes := h.nodes
      rwa [Slots.WellFormed, outline, Slots.keys_map] at hnodes
    · have hsockets := h.sockets
      rwa [Slots.WellFormed, outline, Slots.keys_map] at hsockets
    · rw [← socketAt?_outline, h.place, at_outline]
    · simpa only [at_outline] using h.wired_output a b hw
    · simpa only [at_outline] using h.wired_input a b hw
  · refine ⟨Slots.map_wellFormed h.nodes _, Slots.map_wellFormed h.sockets _, h.links,
      fun n role s => ?_, fun a b hw => ?_, fun a b hw => ?_⟩
    · rw [socketAt?_outline, h.place, at_outline]
    · simpa only [at_outline] using h.wired_output a b hw
    · simpa only [at_outline] using h.wired_input a b hw

theorem linkedNodes_outline (g : Graph) : g.outline.linkedNodes = g.linkedNodes := by
  funext n
  have howner : g.outline.owner? = g.owner? := funext g.owner?_outline
  rw [linkedNodes, linkedNodes, howner, node?_outline]
  cases g.node? n <;> rfl

theorem component_outline (g : Graph) (seeds : List SocketId) :
    g.outline.component seeds = g.component seeds := by
  have howner : g.outline.owner? = g.owner? := funext g.owner?_outline
  rw [component, component, linkedNodes_outline, nodeIds_outline, howner]
  simp only [outline, Slots.map, List.filter_map, List.map_map, Component.mk.injEq, true_and]
  rfl

theorem dependencies_outline (g : Graph) (included : NodeId → Bool) :
    g.outline.dependencies included = g.dependencies included := by
  have howner : g.outline.owner? = g.owner? := funext g.owner?_outline
  rw [dependencies, dependencies, nodeIds_outline, howner]
  rfl

theorem linksInto_outline (g : Graph) (nodes : List NodeId) :
    g.outline.linksInto nodes = g.linksInto nodes := by
  rw [linksInto, linksInto]
  congr 1
  funext n
  rw [node?_outline]
  cases g.node? n <;> rfl

section Congr

variable (h : g'.outline = g.outline)
include h

theorem links_congr : g'.links = g.links := by
  have hlinks : g'.outline.links = g.outline.links := by rw [h]
  exact hlinks

theorem wired_congr : g'.Wired a b ↔ g.Wired a b := by
  rw [Wired, links_congr h, Wired]

theorem peer?_eq_of_outline : g'.peer? s = g.peer? s := by
  rw [peer?, neighbours, links_congr h, peer?, neighbours]

theorem owner?_congr : g'.owner? s = g.owner? s := by
  rw [← owner?_outline, h, owner?_outline]

theorem node?_congr (hn : g.node? n = some node) :
    ∃ node', g'.node? n = some node' ∧ node'.bare = node.bare := by
  refine Option.map_eq_some_iff.mp ?_
  rw [← node?_outline, h, node?_outline, hn, Option.map_some]

theorem socket?_congr {socket : Socket} (hs : g.socket? s = some socket) :
    ∃ ty state, g'.socket? s = some { socket with ty, state } := by
  have hbare : (g'.socket? s).map Socket.bare = some socket.bare := by
    rw [← socket?_outline, h, socket?_outline, hs, Option.map_some]
  obtain ⟨new, hnew, heq⟩ := Option.map_eq_some_iff.mp hbare
  refine ⟨new.ty, new.state, ?_⟩
  rw [hnew]
  cases new
  cases socket
  cases heq
  rfl

theorem socketAt?_congr : g'.socketAt? n role = g.socketAt? n role := by
  rw [← socketAt?_outline, h, socketAt?_outline]

theorem wellFormed_congr : g'.WellFormed ↔ g.WellFormed := by
  rw [← wellFormed_outline, h, wellFormed_outline]

theorem component_congr (seeds : List SocketId) : g'.component seeds = g.component seeds := by
  rw [← component_outline, h, component_outline]

theorem topologicalOrder_congr (nodes : List NodeId) :
    g'.topologicalOrder nodes = g.topologicalOrder nodes := by
  rw [topologicalOrder, ← dependencies_outline, h, dependencies_outline, topologicalOrder]

theorem linksInto_congr (nodes : List NodeId) : g'.linksInto nodes = g.linksInto nodes := by
  rw [← linksInto_outline, h, linksInto_outline]

end Congr

theorem outline_modifyNode (g : Graph) (n : NodeId) {f : Node → Node}
    (hf : ∀ node, (f node).bare = node.bare) : (g.modifyNode n f).outline = g.outline := by
  rw [outline, modifyNode, Slots.map_modify _ _ hf]
  rfl

theorem outline_modifySocket (g : Graph) (s : SocketId) {f : Socket → Socket}
    (hf : ∀ socket, (f socket).bare = socket.bare) :
    (g.modifySocket s f).outline = g.outline := by
  rw [outline, modifySocket, Slots.map_modify _ _ hf]
  rfl

end Graph
end BlockGraph
