import BlockGraph.Proofs.Graph.Order
import BlockGraph.Proofs.Workspace.Fresh

/-!
# What edits keep

`Sound` holds of every workspace: the graph is well-formed, nodes are as their
signatures say, and stored types share variables only where nodes hang together.
`Settled` is the invariant of workspaces without attached links that are still to be
solved: what hangs together is coherent or faulty.

*Coherent* means that the stored types are principal among the types that fit, that
no node depends on itself, and that every socket has the state that its links call
for, except that it may be invalid from an earlier failure.  *Faulty* means that some
socket is invalid and stays so until its component is solved again: it is linked, or
its node has no signature.  A socket that is invalid without being linked is no
fault, since the next link at it sets its state.

Both depend on the nodes that hang together alone, so they carry over to a workspace
in which these are the same.
-/

namespace BlockGraph
namespace Workspace

variable {ws ws' ws'' : Workspace} {m n : NodeId} {node : Node} {s : SocketId} {A : Assignment}

/-- The sockets of a set of nodes. -/
def SocketOf (ws : Workspace) (K : NodeId → Prop) (s : SocketId) : Prop :=
  ∃ m, ws.graph.owner? s = some m ∧ K m

/-- The supply has handed out every variable of a stored type. -/
def Below (g : Graph) (supply : Supply) : Prop :=
  ∀ s socket, g.socket? s = some socket → ∀ v ∈ socket.ty.leaves, v < supply.next

structure Sound (ws : Workspace) : Prop where
  graph : ws.graph.WellFormed
  nodes : ∀ n node, ws.graph.node? n = some node → node.Sound ws.registry
  below : Below ws.graph ws.supply
  apart : ∀ s t socket socket' v, ws.graph.socket? s = some socket →
    ws.graph.socket? t = some socket' → v ∈ socket.ty.leaves → v ∈ socket'.ty.leaves →
    ws.graph.Connected socket.node socket'.node

structure Coherent (ws : Workspace) (n : NodeId) : Prop where
  typed : ∀ m node, ws.graph.Connected n m → ws.graph.node? m = some node → node.untyped = none
  ranked : ∃ rank : NodeId → Nat, ∀ p c, ws.graph.Connected n p → ws.graph.Feeds p c →
    rank p < rank c
  states : ∀ s socket, ws.graph.socket? s = some socket → ws.graph.Connected n socket.node →
    socket.state = ws.settledState s ∨ ∃ e, socket.state = .invalid e
  principal : Generates ws.stored (ws.SocketOf (ws.graph.Connected n))
    (ws.Typing (ws.graph.Connected n))

def Faulty (ws : Workspace) (n : NodeId) : Prop :=
  ∃ s socket e, ws.graph.socket? s = some socket ∧ ws.graph.Connected n socket.node ∧
    socket.state = .invalid e ∧ ((∃ t, ws.graph.peer? s = some t) ∨ (ws.untyped? s).isSome)

/-- What hangs together with a node is coherent or faulty. -/
def Good (ws : Workspace) (n : NodeId) : Prop :=
  ws.Coherent n ∨ ws.Faulty n

def Settled (ws : Workspace) : Prop :=
  ∀ n node, ws.graph.node? n = some node → ws.Good n

theorem Coherent.of_connected (hc : ws.graph.Connected n m) (h : ws.Coherent m) :
    ws.Coherent n := by
  have heq : ws.graph.Connected m = ws.graph.Connected n :=
    funext fun _ => propext ⟨hc.trans, hc.symm.trans⟩
  obtain ⟨htyped, hranked, hstates, hprincipal⟩ := h
  rw [heq] at htyped hranked hstates hprincipal
  exact ⟨htyped, hranked, hstates, hprincipal⟩

theorem Good.of_connected (hc : ws.graph.Connected n m) (h : ws.Good m) : ws.Good n := by
  rcases h with h | ⟨s, socket, e, hs, hm, hfault⟩
  · exact .inl (h.of_connected hc)
  · exact .inr ⟨s, socket, e, hs, hc.trans hm, hfault⟩

theorem Sound.stored_below (h : ws.Sound) (hs : ws.graph.owner? s = some m) {v : TyVar}
    (hv : v ∈ (ws.stored s).leaves) : v < ws.supply.next := by
  obtain ⟨socket, hsocket, _⟩ := Option.map_eq_some_iff.mp hs
  rw [stored_eq hsocket] at hv
  exact h.below s socket hsocket v hv

theorem Sound.stored_apart (h : ws.Sound) {t : SocketId} (hs : ws.graph.owner? s = some m)
    (ht : ws.graph.owner? t = some n) {v : TyVar} (hvs : v ∈ (ws.stored s).leaves)
    (hvt : v ∈ (ws.stored t).leaves) : ws.graph.Connected m n := by
  obtain ⟨socket, hsocket, rfl⟩ := Option.map_eq_some_iff.mp hs
  obtain ⟨socket', hsocket', rfl⟩ := Option.map_eq_some_iff.mp ht
  rw [stored_eq hsocket] at hvs
  rw [stored_eq hsocket'] at hvt
  exact h.apart s t socket socket' v hsocket hsocket' hvs hvt

theorem Sound.of_stored (hgraph : ws.graph.WellFormed)
    (hnodes : ∀ n node, ws.graph.node? n = some node → node.Sound ws.registry)
    (hbelow : ∀ s m v, ws.graph.owner? s = some m → v ∈ (ws.stored s).leaves → v < ws.supply.next)
    (hapart : ∀ s t m n v, ws.graph.owner? s = some m → ws.graph.owner? t = some n →
      v ∈ (ws.stored s).leaves → v ∈ (ws.stored t).leaves → ws.graph.Connected m n) :
    ws.Sound := by
  refine ⟨hgraph, hnodes, fun s socket hs v hv => ?_, fun s t socket socket' v hs ht hvs hvt => ?_⟩
  · rw [← stored_eq hs] at hv
    exact hbelow s _ v (Graph.owner?_of_socket? hs) hv
  · rw [← stored_eq hs] at hvs
    rw [← stored_eq ht] at hvt
    exact hapart s t _ _ v (Graph.owner?_of_socket? hs) (Graph.owner?_of_socket? ht) hvs hvt

theorem socketOf_congr (h : ws'.graph.outline = ws.graph.outline) {K : NodeId → Prop} :
    ws'.SocketOf K = ws.SocketOf K := by
  funext s
  simp only [SocketOf, Graph.owner?_congr h]

theorem Coherent.of_sameShape (h : SameShape ws ws')
    (htyped : ∀ m node, ws.graph.Connected n m → ws.graph.node? m = some node →
      node.untyped = none)
    (hranked : ∃ rank : NodeId → Nat, ∀ p c, ws.graph.Connected n p → ws.graph.Feeds p c →
      rank p < rank c)
    (hstates : ∀ s socket, ws'.graph.socket? s = some socket →
      ws.graph.Connected n socket.node →
      socket.state = ws.settledState s ∨ ∃ e, socket.state = .invalid e)
    (hprincipal : Generates ws'.stored (ws.SocketOf (ws.graph.Connected n))
      (ws.Typing (ws.graph.Connected n))) : ws'.Coherent n := by
  refine ⟨fun m node hm hnode => htyped m node (h.connected.mp hm) (h.node? m ▸ hnode), ?_,
    fun s socket hs hm => ?_, ?_⟩
  · obtain ⟨rank, hrank⟩ := hranked
    rw [Graph.connected_congr h.outline, Graph.feeds_congr h.outline]
    exact ⟨rank, hrank⟩
  · rw [h.settledState]
    exact hstates s socket hs (h.connected.mp hm)
  · rw [Graph.connected_congr h.outline, socketOf_congr h.outline]
    exact hprincipal.congr_set fun A => h.typing

/-! ## Nodes that are the same in two workspaces -/

/-- A node is the same in both workspaces, and what it binds has the same types. -/
structure SameAt (ws ws' : Workspace) (n : NodeId) : Prop where
  graph : Graph.SameAt ws.graph ws'.graph n
  fields : ∀ node type binders, ws.graph.node? n = some node → node.block = .caseOf type binders →
    ws'.registry.fieldType? type = ws.registry.fieldType? type

theorem SameAt.refl (ws : Workspace) (n : NodeId) : SameAt ws ws n :=
  ⟨.refl ws.graph n, fun _ _ _ _ _ => rfl⟩

theorem SameAt.symm (h : ws.graph.WellFormed) (h' : ws'.graph.WellFormed)
    (hsame : SameAt ws ws' n) : SameAt ws' ws n :=
  ⟨hsame.graph.symm h h', fun node type binders hn hblock =>
    (hsame.fields node type binders (hsame.graph.node ▸ hn) hblock).symm⟩

theorem SameAt.trans (h : ws.graph.WellFormed) (h' : ws'.graph.WellFormed)
    (hsame : SameAt ws ws' n) (hsame' : SameAt ws' ws'' n) : SameAt ws ws'' n :=
  ⟨hsame.graph.trans h h' hsame'.graph, fun node type binders hn hblock =>
    (hsame'.fields node type binders (hsame.graph.node.trans hn) hblock).trans
      (hsame.fields node type binders hn hblock)⟩

theorem SameShape.sameAt (h : SameShape ws ws')
    (hsockets : ∀ s, ws.graph.owner? s = some n → ws'.graph.socket? s = ws.graph.socket? s) :
    SameAt ws ws' n :=
  ⟨⟨h.node? n, hsockets, fun s _ => h.peer? s⟩, fun _ _ _ _ _ => by rw [h.registry]⟩

section Transport

variable (h : ws.graph.WellFormed) (h' : ws'.graph.WellFormed)
  (hsame : ∀ m, ws.graph.Connected n m → SameAt ws ws' m)
include h h' hsame

theorem connected_iff_of_same : ws'.graph.Connected n m ↔ ws.graph.Connected n m :=
  Graph.connected_iff_of_sameAt h h' fun m hm => (hsame m hm).graph

theorem same_of_connected_iff :
    ∀ m, ws'.graph.Connected n m → SameAt ws' ws m := fun m hm =>
  (hsame m ((connected_iff_of_same h h' hsame).mp hm)).symm h h'

theorem typing_of_same (hA : ws.Typing (ws.graph.Connected n) A) :
    ws'.Typing (ws'.graph.Connected n) A := by
  have hconn := fun {m} => connected_iff_of_same h h' hsame (m := m)
  refine ⟨fun m node hm hnode => ?_, fun a b m hw ha hm => ?_, fun m node hm hnode => ?_⟩
  · have hm := hconn.mp hm
    exact hA.node m node hm ((hsame m hm).graph.node ▸ hnode)
  · have hm := hconn.mp hm
    have ha := ((hsame m hm).graph.owner h h').mp ha
    exact hA.wire a b m ((hsame m hm).graph.wired h h' ha hw) ha hm
  · have hm := hconn.mp hm
    have hnode : ws.graph.node? m = some node := (hsame m hm).graph.node ▸ hnode
    have hm' : ∀ k, ws.graph.Connected m k → SameAt ws ws' k := fun k hk => hsame k (hm.trans hk)
    have hsite := bindingSite?_of_sameAt h h' fun k hk => (hm' k hk).graph
    intro site t hbound hfield
    rw [hsite] at hbound
    obtain ⟨cnode, binders, hc, hcnode, hblock⟩ := bindingSite?_connected h hbound
    rw [(hm' site.node hc).fields cnode site.type binders hcnode hblock] at hfield
    exact hA.scope m node hm hnode site t hbound hfield

theorem settledState_of_same (hs : ws.graph.owner? s = some m) (hm : ws.graph.Connected n m) :
    ws'.settledState s = ws.settledState s ∧ ws'.untyped? s = ws.untyped? s := by
  have howner := ((hsame m hm).graph.owner h h').mpr hs
  have huntyped : ws'.untyped? s = ws.untyped? s := by
    rw [untyped?, untyped?, hs, howner, Option.bind_some, Option.bind_some,
      (hsame m hm).graph.node]
  exact ⟨by rw [settledState, settledState, huntyped, (hsame m hm).graph.peer s hs], huntyped⟩

theorem feeds_of_same {p c : NodeId} (hp : ws.graph.Connected n p) (hf : ws'.graph.Feeds p c) :
    ws.graph.Feeds p c := by
  obtain ⟨a, b, hw, ha, hb⟩ := hf
  have hconn := fun {m} => connected_iff_of_same h h' hsame (m := m)
  have hc : ws.graph.Connected n c :=
    hconn.mp ((hconn.mpr hp).tail ⟨a, b, ha, hb, .inl hw⟩)
  have ha' := ((hsame p hp).graph.owner h h').mp ha
  have hb' := ((hsame c hc).graph.owner h h').mp hb
  exact ⟨a, b, (hsame p hp).graph.wired h h' ha' hw, ha', hb'⟩

theorem typed_of_same (htyped : ∀ m node, ws.graph.Connected n m → ws.graph.node? m = some node →
    node.untyped = none) (m : NodeId) (node : Node) (hm : ws'.graph.Connected n m)
    (hnode : ws'.graph.node? m = some node) : node.untyped = none := by
  have hm := (connected_iff_of_same h h' hsame).mp hm
  exact htyped m node hm ((hsame m hm).graph.node ▸ hnode)

theorem ranked_of_same (hranked : ∃ rank : NodeId → Nat, ∀ p c, ws.graph.Connected n p →
    ws.graph.Feeds p c → rank p < rank c) :
    ∃ rank : NodeId → Nat, ∀ p c, ws'.graph.Connected n p → ws'.graph.Feeds p c →
      rank p < rank c := by
  obtain ⟨rank, hrank⟩ := hranked
  refine ⟨rank, fun p c hp hf => ?_⟩
  have hp := (connected_iff_of_same h h' hsame).mp hp
  exact hrank p c hp (feeds_of_same h h' hsame hp hf)

theorem state_of_same {socket : Socket} (hs : ws'.graph.socket? s = some socket)
    (hm : ws'.graph.Connected n socket.node) :
    ws.graph.socket? s = some socket ∧ ws.graph.Connected n socket.node ∧
      ws'.settledState s = ws.settledState s := by
  have hm := (connected_iff_of_same h h' hsame).mp hm
  have howner := ((hsame _ hm).graph.owner h h').mp (Graph.owner?_of_socket? hs)
  rw [(hsame _ hm).graph.socket s howner] at hs
  exact ⟨hs, hm, (settledState_of_same h h' hsame howner hm).1⟩

theorem Coherent.of_same (hc : ws.Coherent n) : ws'.Coherent n := by
  have hconn := fun {m} => connected_iff_of_same h h' hsame (m := m)
  have hback := same_of_connected_iff h h' hsame
  have hsocket : ∀ {s m}, ws.graph.Connected n m → (ws'.graph.owner? s = some m ↔
      ws.graph.owner? s = some m) := fun hm => (hsame _ hm).graph.owner h h'
  refine ⟨typed_of_same h h' hsame hc.typed, ranked_of_same h h' hsame hc.ranked,
    fun s socket hs hm => ?_, fun A => ?_⟩
  · obtain ⟨hs, hm, hsettled⟩ := state_of_same h h' hsame hs hm
    rw [hsettled]
    exact hc.states s socket hs hm
  · have htyping : ws'.Typing (ws'.graph.Connected n) A ↔ ws.Typing (ws.graph.Connected n) A :=
      ⟨typing_of_same h' h hback, typing_of_same h h' hsame⟩
    rw [htyping, hc.principal A]
    refine exists_congr fun θ => forall_congr' fun s => ?_
    constructor
    · rintro hA ⟨m, hs, hm⟩
      have hm := hconn.mp hm
      have hs := (hsocket hm).mp hs
      rw [hA ⟨m, hs, hm⟩, stored, stored, typeOf?, typeOf?, (hsame m hm).graph.socket s hs]
    · rintro hA ⟨m, hs, hm⟩
      rw [hA ⟨m, (hsocket hm).mpr hs, hconn.mpr hm⟩, stored, stored, typeOf?, typeOf?,
        (hsame m hm).graph.socket s hs]

theorem Faulty.of_same (hf : ws.Faulty n) : ws'.Faulty n := by
  obtain ⟨s, socket, e, hs, hm, hstate, hfault⟩ := hf
  have howner := Graph.owner?_of_socket? hs
  refine ⟨s, socket, e, ?_, (connected_iff_of_same h h' hsame).mpr hm, hstate, ?_⟩
  · rw [(hsame _ hm).graph.socket s howner, hs]
  · rw [(hsame _ hm).graph.peer s howner, (settledState_of_same h h' hsame howner hm).2]
    exact hfault

theorem Good.of_same (hg : ws.Good n) : ws'.Good n :=
  hg.imp (Coherent.of_same h h' hsame) (Faulty.of_same h h' hsame)

end Transport

end Workspace
end BlockGraph
