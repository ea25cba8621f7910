import BlockGraph.Proofs.Workspace.Invariant
import BlockGraph.Proofs.Workspace.Sifting

/-!
# Rebuilding components

Rebuilding gives fresh instances to the nodes of some components and solves their
links.  Afterwards everything that hangs together there is coherent or faulty, and
nothing else has changed.

The links of several components are solved together.  Fresh instances of different
nodes have no variables in common, so the links of one component do not touch the
types of another, and each can be looked at by itself.
-/

namespace BlockGraph

namespace Graph

theorem mem_linksInto {g : Graph} (h : g.WellFormed) {nodes : List NodeId} {a b : SocketId} :
    (⟨a, b⟩ : Link) ∈ g.linksInto nodes ↔ g.Wired a b ∧ ∃ n ∈ nodes, g.owner? b = some n := by
  rw [linksInto, List.mem_flatMap]
  constructor
  · rintro ⟨n, hn, hl⟩
    cases hnode : g.node? n with
    | none =>
      rw [hnode] at hl
      exact absurd hl List.not_mem_nil
    | some node =>
      simp only [hnode] at hl
      obtain ⟨input, hinput, hl⟩ := List.mem_filterMap.mp hl
      obtain ⟨output, hp, hl⟩ := Option.map_eq_some_iff.mp hl
      cases hl
      obtain ⟨k, hk⟩ := (mem_inputs_iff h hnode).mp hinput
      refine ⟨?_, n, hn, owner?_eq_some_iff.mpr ⟨_, hk⟩⟩
      exact ((peer?_eq_some_iff h.links).mp hp).resolve_left (not_wired_input h hk)
  · rintro ⟨hw, n, hn, hb⟩
    obtain ⟨node, hnode, _⟩ := owner?_node h hb
    obtain ⟨m, k, hk⟩ := h.wired_input a b hw
    have hm := owner?_eq_some_iff.mpr ⟨_, hk⟩
    rw [hb] at hm
    cases hm
    refine ⟨n, hn, ?_⟩
    simp only [hnode]
    refine List.mem_filterMap.mpr ⟨b, (mem_inputs_iff h hnode).mpr ⟨k, hk⟩, ?_⟩
    rw [(peer?_eq_some_iff h.links).mpr (.inr hw), Option.map_some]

/-- The links into the nodes of components, in an order of these, are the links from them. -/
theorem mem_linksInto_order {g : Graph} (h : g.WellFormed) {seeds : List SocketId}
    {order : List NodeId} (horder : g.topologicalOrder (g.component seeds).nodes = .ok order)
    {a b : SocketId} : (⟨a, b⟩ : Link) ∈ g.linksInto order ↔
      g.Wired a b ∧ ∃ m, g.owner? a = some m ∧ m ∈ (g.component seeds).nodes := by
  rw [mem_linksInto h]
  refine and_congr_right fun hw => ?_
  obtain ⟨m, hm⟩ := h.wired_output a b hw
  obtain ⟨k, _, hk⟩ := h.wired_input a b hw
  have ha := owner?_eq_some_iff.mpr ⟨_, hm⟩
  have hb := owner?_eq_some_iff.mpr ⟨_, hk⟩
  have hmk : g.Connected m k := .tail (.refl) ⟨a, b, ha, hb, .inl hw⟩
  have hmem := (topologicalOrder_ok h horder).1
  constructor
  · rintro ⟨n, hn, hbn⟩
    rw [hb] at hbn
    cases hbn
    exact ⟨m, ha, component_closed h ((hmem k).mp hn).1 hmk.symm⟩
  · rintro ⟨n, han, hn⟩
    rw [ha] at han
    cases han
    have hk' := component_closed h hn hmk
    exact ⟨k, (hmem k).mpr ⟨hk', mem_nodeIds.mpr (component_live hk')⟩, hb⟩

end Graph

namespace Workspace

variable {z : TyVar → Ty}

variable {ws ws' ws₁ : Workspace} {m n : NodeId} {nodes : List NodeId} {A : Assignment}
  {K : NodeId → Prop} {failures : List (Link × TypeError)} {s : SocketId} {sockets : List SocketId}

/-- The conditions on single nodes and the equations of links make a typing. -/
theorem typing_iff :
    ws.Typing K A ↔
      (∀ n node, K n → ws.graph.node? n = some node →
        (∃ scheme, node.scheme? = some scheme ∧ node.InstanceOf scheme A) ∧
          ws.InScope n node A) ∧
      ∀ a b, (ws.graph.Wired a b ∧ ws.SocketOf K a) → A a = A b := by
  constructor
  · intro h
    refine ⟨fun n node hn hnode => ⟨h.node n node hn hnode, h.scope n node hn hnode⟩, ?_⟩
    rintro a b ⟨hw, m, ha, hm⟩
    exact h.wire a b m hw ha hm
  · rintro ⟨hnodes, hwires⟩
    exact ⟨fun n node hn hnode => (hnodes n node hn hnode).1,
      fun a b m hw ha hm => hwires a b ⟨hw, m, ha, hm⟩,
      fun n node hn hnode => (hnodes n node hn hnode).2⟩

/-- Types that are principal for each node by itself are principal for all of them, if no two nodes
have a variable in common. -/
theorem generates_of_nodes (h : ws.graph.WellFormed) {τ : Assignment}
    {P : NodeId → Node → Assignment → Prop}
    (hapart : ∀ s t v m k, K m → K k → ws.graph.owner? s = some m → ws.graph.owner? t = some k →
      v ∈ (τ s).leaves → v ∈ (τ t).leaves → m = k)
    (hnode : ∀ n node, K n → ws.graph.node? n = some node → ∀ A,
      P n node A ↔ ∃ θ : TyVar → Ty, ∀ s ∈ node.sockets, A s = (τ s).bind θ) :
    Generates τ (ws.SocketOf K) fun A => ∀ n node, K n → ws.graph.node? n = some node →
      P n node A := by
  intro A
  constructor
  · intro hA
    refine exists_common_instance ws.graph.owner? ?_ fun owner => ?_
    · rintro s t v ⟨m, hs, hm⟩ ⟨k, ht, hk⟩ hvs hvt
      rw [hs, ht, hapart s t v m k hm hk hs ht hvs hvt]
    · by_cases hex : ∃ n node, owner = some n ∧ K n ∧ ws.graph.node? n = some node
      · obtain ⟨n, node, rfl, hn, hlive⟩ := hex
        obtain ⟨θ, hθ⟩ := (hnode n node hn hlive A).mp (hA n node hn hlive)
        exact ⟨θ, fun s _ hs => hθ s ((Graph.mem_sockets_iff h hlive).mpr hs)⟩
      · refine ⟨.var, fun s hs howner => absurd ?_ hex⟩
        obtain ⟨m, hm, hKm⟩ := hs
        obtain ⟨node, hlive, _⟩ := Graph.owner?_node h hm
        exact ⟨m, node, howner ▸ hm, hKm, hlive⟩
  · rintro ⟨θ, hθ⟩ n node hn hlive
    exact (hnode n node hn hlive A).mpr
      ⟨θ, fun s hs => hθ s ⟨n, (Graph.mem_sockets_iff h hlive).mp hs, hn⟩⟩

/-- Copies of the shapes of nodes are principal for the conditions on single nodes, if no two nodes
have a variable in common. -/
theorem generates_of_copies (h : ws.graph.WellFormed) {τ : Assignment}
    (hsound : ∀ n node, ws.graph.node? n = some node → node.Sound ws.registry)
    (htyped : ∀ n node, K n → ws.graph.node? n = some node → node.untyped = none)
    (hapart : ∀ s t v m k, K m → K k → ws.graph.owner? s = some m → ws.graph.owner? t = some k →
      v ∈ (τ s).leaves → v ∈ (τ t).leaves → m = k)
    (hcopy : ∀ n node, K n → ws.graph.node? n = some node →
      ∃ shape, ws.shape? n = some shape ∧ CopyOf node shape τ) :
    Generates τ (ws.SocketOf K) fun A => ∀ n node, K n → ws.graph.node? n = some node →
      (∃ scheme, node.scheme? = some scheme ∧ node.InstanceOf scheme A) ∧ ws.InScope n node A := by
  refine generates_of_nodes h hapart fun n node hn hnode A => ?_
  obtain ⟨shape, hshape, _, hiff⟩ :=
    exists_shape hnode (hsound n node hnode) (htyped n node hn hnode)
  obtain ⟨shape', hshape', hcopy⟩ := hcopy n node hn hnode
  rw [hshape] at hshape'
  cases hshape'
  rw [hiff A, hcopy.instanceOf_iff]

theorem Refreshed.generates (h : ws.graph.WellFormed) (hr : Refreshed ws ws₁ nodes)
    (hK : ∀ n, K n → n ∈ nodes)
    (hsound : ∀ n node, ws.graph.node? n = some node → node.Sound ws.registry)
    (htyped : ∀ n node, K n → ws.graph.node? n = some node → node.untyped = none) :
    Generates ws₁.stored (ws.SocketOf K) fun A => ∀ n node, K n → ws.graph.node? n = some node →
      (∃ scheme, node.scheme? = some scheme ∧ node.InstanceOf scheme A) ∧ ws.InScope n node A :=
  generates_of_copies h hsound htyped
    (fun s t v m k hm hk hs ht hvs hvt => hr.apart s t v m (hK m hm) k (hK k hk) hs ht hvs hvt)
    fun n node hn hnode => hr.copy n (hK n hn) node hnode (hsound n node hnode)
      (htyped n node hn hnode)

/-! ## Components that have been rebuilt -/

/-- The nodes of a set have been rebuilt, and nothing else has changed. -/
structure Rebuilt (ws ws' : Workspace) (D : NodeId → Prop) : Prop where
  sameShape : SameShape ws ws'
  supply : ws.supply.next ≤ ws'.supply.next
  other : ∀ s, ¬ ws.SocketOf D s → ws'.graph.socket? s = ws.graph.socket? s
  within : ∀ s, ws.SocketOf D s → (ws'.stored s).Within ws.supply.next ws'.supply.next
  apart : ∀ s t v m k, D m → D k → ws.graph.owner? s = some m → ws.graph.owner? t = some k →
    v ∈ (ws'.stored s).leaves → v ∈ (ws'.stored t).leaves → ws.graph.Connected m k
  good : ∀ n, D n → ws'.Good n

theorem Rebuilt.socket?_of_not_mem {D : NodeId → Prop} (hb : Rebuilt ws ws' D) {socket : Socket}
    (hs : ws'.graph.socket? s = some socket) (hD : ¬ D socket.node) :
    ws.graph.socket? s = some socket := by
  rw [← hb.other s, hs]
  rintro ⟨m, hm, hDm⟩
  rw [hb.sameShape.owner?_of_socket? hs] at hm
  cases hm
  exact hD hDm

/-- Some sockets have got types with variables from the supply, and nothing else has changed. -/
structure Redrawn (ws ws' : Workspace) : Prop where
  sameShape : SameShape ws ws'
  supply : ws.supply.next ≤ ws'.supply.next
  socket : ∀ s socket, ws'.graph.socket? s = some socket →
    ws.graph.socket? s = some socket ∨ socket.ty.Within ws.supply.next ws'.supply.next

/-- Sockets have got solved types and new states. -/
structure Finished (ws₁ ws' : Workspace) (sockets : List SocketId) (z : TyVar → Ty)
    (state : SocketId → SocketState) : Prop where
  sameShape : SameShape ws₁ ws'
  supply : ws'.supply = ws₁.supply
  other : ∀ s, s ∉ sockets → ws'.graph.socket? s = ws₁.graph.socket? s
  socket : ∀ s ∈ sockets, ∀ socket, ws₁.graph.socket? s = some socket →
    ws'.graph.socket? s = some { socket with ty := socket.ty.bind z, state := state s }

theorem finished_of_foldl (ws₁ : Workspace) (hnodup : sockets.Nodup)
    {state : SocketId → SocketState} (f : SocketId → Socket → Socket)
    (hf : ∀ s socket, f s socket = { socket with ty := socket.ty.bind z, state := state s }) :
    Finished ws₁
      { ws₁ with graph := sockets.foldl (fun g s => g.modifySocket s (f s)) ws₁.graph } sockets z
      state := by
  obtain ⟨hother, hown⟩ := Graph.socket?_foldl_modifySocket id f ws₁.graph sockets
  obtain ⟨houtline, hnodes⟩ := Graph.outline_foldl_modifySocket id f
    (fun s socket => by rw [hf]; rfl) ws₁.graph sockets
  rw [List.map_id] at hother hown
  refine ⟨⟨hnodes, houtline, rfl⟩, rfl, hother, fun s hs socket hsocket => ?_⟩
  have hnew := hown hnodup s hs
  rw [id_eq, hsocket, Option.map_some, hf] at hnew
  exact hnew

theorem invalidate_finished (ws₁ : Workspace) (e : TypeError) (hnodup : sockets.Nodup) :
    Finished ws₁ (ws₁.invalidate e sockets) sockets .var fun _ => .invalid e :=
  finished_of_foldl ws₁ hnodup _ fun s socket => by rw [TyTerm.bind_self]

theorem settle_finished (ws₁ : Workspace) {solver : Solver} (hsolver : solver.Layered)
    (failures : List (Link × TypeError)) (hnodup : sockets.Nodup) :
    Finished ws₁ (ws₁.settle solver failures sockets) sockets solver.image fun s =>
      match failureAt? failures s with
      | some e => .invalid e
      | none => ws₁.settledState s :=
  finished_of_foldl ws₁ hnodup _ fun _ socket =>
    (Socket.mk.injEq ..).mpr ⟨rfl, rfl, Solver.zonk_eq_bind hsolver socket.ty, rfl⟩

section Component

variable {s : SocketId}

variable {seeds : List SocketId} {z : TyVar → Ty} {state : SocketId → SocketState}
  {es : List Equation} (h : ws.graph.WellFormed)
  (hr : Refreshed ws ws₁ (ws.graph.component seeds).nodes)
  (hf : Finished ws₁ ws' (ws.graph.component seeds).sockets z state)
  (hz : MostGeneral z es)
  (hes : ∀ e ∈ es, ∃ a b, ws.graph.Wired a b ∧
    ws.SocketOf (fun n => n ∈ (ws.graph.component seeds).nodes) a ∧
    e = (ws₁.stored a, ws₁.stored b))

theorem mem_sockets_of_socketOf (h : ws.graph.WellFormed) :
    s ∈ (ws.graph.component seeds).sockets ↔
      ws.SocketOf (fun n => n ∈ (ws.graph.component seeds).nodes) s :=
  Graph.mem_component_sockets h

include h hr hf in
theorem finished_socket (hs : s ∈ (ws.graph.component seeds).sockets) :
    ∃ socket, ws.graph.socket? s = some socket ∧
      ws'.graph.socket? s = some { socket with ty := ws'.stored s, state := state s } ∧
      ws'.stored s = (ws₁.stored s).bind z := by
  obtain ⟨m, hm, _⟩ := (Graph.mem_component_sockets h).mp hs
  obtain ⟨socket, hsocket, _⟩ := Option.map_eq_some_iff.mp hm
  obtain ⟨ty, hty⟩ := hr.socket s socket hsocket
  have hnew := hf.socket s hs _ hty
  refine ⟨socket, hsocket, ?_, ?_⟩
  · rw [stored_eq hnew, hnew]
  · rw [stored_eq hnew, stored_eq hty]

include h hes in
theorem equation_ends {e : Equation} (he : e ∈ es) : ∃ a b m k,
    m ∈ (ws.graph.component seeds).nodes ∧ k ∈ (ws.graph.component seeds).nodes ∧
    ws.graph.owner? a = some m ∧ ws.graph.owner? b = some k ∧ ws.graph.Wired a b ∧
    ws.graph.Connected m k ∧ e = (ws₁.stored a, ws₁.stored b) := by
  obtain ⟨a, b, hw, ⟨m, ha, hm⟩, heq⟩ := hes e he
  obtain ⟨k, _, hk⟩ := h.wired_input a b hw
  have hb := Graph.owner?_eq_some_iff.mpr ⟨_, hk⟩
  have hc : ws.graph.Connected m k := .tail (.refl) ⟨a, b, ha, hb, .inl hw⟩
  exact ⟨a, b, m, k, hm, Graph.component_closed h hm hc, ha, hb, hw, hc, heq⟩

include h hr hes in
/-- An equation belongs to a link of a component, or it has no variable of this component. -/
theorem equation_divided (hn : n ∈ (ws.graph.component seeds).nodes) {e : Equation} (he : e ∈ es) :
    (∃ a b, ws.graph.Wired a b ∧ ws.SocketOf (ws.graph.Connected n) a ∧
      e = (ws₁.stored a, ws₁.stored b)) ∨
      ∀ s, ws.SocketOf (ws.graph.Connected n) s → ∀ v ∈ (ws₁.stored s).leaves,
        v ∉ e.1.leaves ∧ v ∉ e.2.leaves := by
  obtain ⟨a, b, p, q, hp, hq, ha, hb, hw, hpq, rfl⟩ := equation_ends h hes he
  by_cases hc : ws.graph.Connected n p
  · exact .inl ⟨a, b, hw, ⟨p, ha, hc⟩, rfl⟩
  · refine .inr ?_
    rintro s ⟨j, hs, hj⟩ v hv
    have hmem := Graph.component_closed h hn hj
    refine ⟨fun hva => hc ?_, fun hvb => hc ?_⟩
    · rw [← hr.apart s a v j hmem p hp hs ha hv hva]
      exact hj
    · refine Graph.Connected.trans ?_ hpq.symm
      rw [← hr.apart s b v j hmem q hq hs hb hv hvb]
      exact hj

include h hr hf in
theorem finished_other (hs : ¬ ws.SocketOf (fun n => n ∈ (ws.graph.component seeds).nodes) s) :
    ws'.graph.socket? s = ws.graph.socket? s := by
  rw [hf.other s fun hmem => hs ((mem_sockets_of_socketOf h).mp hmem), hr.other s]
  exact fun n hn hown => hs ⟨n, hown, hn⟩

include h hr hf hz hes in
theorem finished_within (hs : ws.SocketOf (fun n => n ∈ (ws.graph.component seeds).nodes) s) :
    (ws'.stored s).Within ws.supply.next ws'.supply.next := by
  obtain ⟨_, _, _, hstored⟩ := finished_socket h hr hf ((mem_sockets_of_socketOf h).mpr hs)
  rw [hstored, hf.supply]
  obtain ⟨m, hm, hD⟩ := hs
  refine fun v hv => hz.leaves_of_divided (fun e he => .inl ?_) (hr.within s m hD hm) hv
  obtain ⟨a, b, k, l, hk, hl, ha, hb, _, _, rfl⟩ := equation_ends h hes he
  intro w hw
  rcases List.mem_append.mp hw with hw | hw
  · exact hr.within a k hk ha w hw
  · exact hr.within b l hl hb w hw

include h hr hf hz hes in
theorem Finished.redrawn : Redrawn ws ws' := by
  refine ⟨hr.sameShape.trans hf.sameShape, hf.supply ▸ hr.supply, fun s socket hs => ?_⟩
  by_cases hD : ws.SocketOf (fun n => n ∈ (ws.graph.component seeds).nodes) s
  · rw [← stored_eq hs]
    exact .inr (finished_within h hr hf hz hes hD)
  · exact .inl ((finished_other h hr hf hD).symm.trans hs)

include h hr hf hz hes in
theorem finished_apart {t : SocketId} {v : TyVar} {k : NodeId}
    (hm : m ∈ (ws.graph.component seeds).nodes) (hk : k ∈ (ws.graph.component seeds).nodes)
    (hs : ws.graph.owner? s = some m) (ht : ws.graph.owner? t = some k)
    (hvs : v ∈ (ws'.stored s).leaves) (hvt : v ∈ (ws'.stored t).leaves) :
    ws.graph.Connected m k := by
  obtain ⟨_, _, _, hstored⟩ :=
    finished_socket h hr hf ((Graph.mem_component_sockets h).mpr ⟨m, hs, hm⟩)
  obtain ⟨_, _, _, hstored'⟩ :=
    finished_socket h hr hf ((Graph.mem_component_sockets h).mpr ⟨k, ht, hk⟩)
  rw [hstored] at hvs
  rw [hstored'] at hvt
  refine Classical.byContradiction fun hapart => ?_
  -- The variables are divided into those of the nodes that hang together with the first socket, and
  -- the others.  No equation leads across.
  let side : TyVar → Prop := fun v =>
    ∃ i j, ws.graph.owner? i = some j ∧ ws.graph.Connected m j ∧ v ∈ (ws₁.stored i).leaves
  have hside : ∀ i j, ws.graph.owner? i = some j → ws.graph.Connected m j →
      ∀ v ∈ (ws₁.stored i).leaves, side v := fun i j hi hj v hv => ⟨i, j, hi, hj, hv⟩
  have hother : ∀ i j, ws.graph.owner? i = some j → j ∈ (ws.graph.component seeds).nodes →
      ¬ ws.graph.Connected m j → ∀ v ∈ (ws₁.stored i).leaves, ¬ side v := by
    rintro i j hi hj hne v hv ⟨i', j', hi', hj', hv'⟩
    have heq := hr.apart i i' v j hj j' (Graph.component_closed h hm hj') hi hi' hv hv'
    exact hne (heq ▸ hj')
  have hdivided : ∀ e ∈ es, (∀ v ∈ e.1.leaves ++ e.2.leaves, side v) ∨
      ∀ v ∈ e.1.leaves ++ e.2.leaves, ¬ side v := by
    intro e he
    obtain ⟨a, b, p, q, hp, hq, ha, hb, _, hpq, rfl⟩ := equation_ends h hes he
    by_cases hc : ws.graph.Connected m p
    · refine .inl fun w hw => ?_
      rcases List.mem_append.mp hw with hw | hw
      · exact hside a p ha hc w hw
      · exact hside b q hb (hc.trans hpq) w hw
    · refine .inr fun w hw => ?_
      rcases List.mem_append.mp hw with hw | hw
      · exact hother a p ha hp hc w hw
      · exact hother b q hb hq (fun hq' => hc (hq'.trans hpq.symm)) w hw
  have hin : side v := hz.leaves_of_divided hdivided (hside s m hs (.refl ws.graph m)) hvs
  have hout : ¬ side v := by
    refine hz.leaves_of_divided (fun e he => (hdivided e he).symm.imp_right fun hall w hw => ?_)
      (hother t k ht hk hapart) hvt
    exact not_not_intro (hall w hw)
  exact hout hin

include h hr hf hz hes in
/-- Finishing a component rebuilds it, if everything that hangs together ends up good. -/
theorem Finished.rebuilt (hgood : ∀ n ∈ (ws.graph.component seeds).nodes, ws'.Good n) :
    Rebuilt ws ws' fun n => n ∈ (ws.graph.component seeds).nodes := by
  refine ⟨hr.sameShape.trans hf.sameShape, hf.supply ▸ hr.supply, fun s => finished_other h hr hf,
    fun s hs => ?_, ?_, hgood⟩
  · exact finished_within h hr hf hz hes hs
  · exact fun s t v m k hm hk hs ht hvs hvt => finished_apart h hr hf hz hes hm hk hs ht hvs hvt

include h hr hf hz hes in
/-- What hangs together is coherent if all of its nodes have signatures, no node depends on itself,
all links have been met and the states are right. -/
theorem Finished.coherent
    (hsound : ∀ n node, ws.graph.node? n = some node → node.Sound ws.registry)
    (hn : n ∈ (ws.graph.component seeds).nodes)
    (htyped : ∀ m node, ws.graph.Connected n m → ws.graph.node? m = some node →
      node.untyped = none)
    (hranked : ∃ rank : NodeId → Nat, ∀ p c, ws.graph.Connected n p → ws.graph.Feeds p c →
      rank p < rank c)
    (hlinks : ∀ a b, ws.graph.Wired a b → ws.SocketOf (ws.graph.Connected n) a →
      (ws₁.stored a, ws₁.stored b) ∈ es)
    (hstates : ∀ s, ws.SocketOf (ws.graph.Connected n) s →
      state s = ws.settledState s ∨ ∃ e, state s = .invalid e) : ws'.Coherent n := by
  have hD : ∀ m, ws.graph.Connected n m → m ∈ (ws.graph.component seeds).nodes :=
    fun m hm => Graph.component_closed h hn hm
  have hsocket : ∀ s, ws.SocketOf (ws.graph.Connected n) s →
      s ∈ (ws.graph.component seeds).sockets := fun s ⟨m, hs, hm⟩ =>
    (Graph.mem_component_sockets h).mpr ⟨m, hs, hD m hm⟩
  refine Coherent.of_sameShape (hr.sameShape.trans hf.sameShape) htyped hranked
    (fun s socket hs hm => ?_) ?_
  · have howner := (hr.sameShape.trans hf.sameShape).owner?_of_socket? hs
    obtain ⟨_, _, hnew, _⟩ := finished_socket h hr hf (hsocket s ⟨_, howner, hm⟩)
    rw [hs] at hnew
    cases hnew
    exact hstates s ⟨_, howner, hm⟩
  · have hgen := (hr.generates h hD hsound htyped).solve hz
      (W := fun a b => ws.graph.Wired a b ∧ ws.SocketOf (ws.graph.Connected n) a)
      (fun a b ⟨hw, ha⟩ => ?_) fun e he => (equation_divided h hr hes hn he).imp_left
        fun ⟨a, b, hw, ha, heq⟩ => ⟨a, b, ⟨hw, ha⟩, heq⟩
    · refine (hgen.congr_family fun s hs => ?_).congr_set fun A => typing_iff
      obtain ⟨_, _, _, hstored⟩ := finished_socket h hr hf (hsocket s hs)
      exact hstored
    · obtain ⟨m, ha', hm⟩ := ha
      obtain ⟨k, _, hk⟩ := h.wired_input a b hw
      have hb := Graph.owner?_eq_some_iff.mpr ⟨_, hk⟩
      exact ⟨⟨m, ha', hm⟩, ⟨k, hb, hm.tail ⟨a, b, ha', hb, .inl hw⟩⟩, hlinks a b hw ⟨m, ha', hm⟩⟩

end Component

/-! ## Rebuilding -/

/-- The state that a socket gets when links have been solved. -/
def solvedState (ws : Workspace) (failures : List (Link × TypeError)) (s : SocketId) :
    SocketState :=
  match failureAt? failures s with
  | some e => .invalid e
  | none => ws.settledState s

theorem solvedState_untyped (ws : Workspace) (failures : List (Link × TypeError)) {node : Node}
    (hs : ws.graph.owner? s = some m) (hm : ws.graph.node? m = some node)
    (huntyped : node.untyped ≠ none) : ∃ e, ws.solvedState failures s = .invalid e := by
  obtain ⟨e, he⟩ := Option.ne_none_iff_exists'.mp huntyped
  rw [solvedState]
  split
  · next e' _ => exact ⟨e', rfl⟩
  · exact ⟨e, by simp only [settledState, untyped?, hs, hm, Option.bind_some, he]⟩

theorem solvedState_failure (ws : Workspace) {f : Link × TypeError} (hf : f ∈ failures) :
    ∃ e, ws.solvedState failures f.1.output = .invalid e := by
  rw [solvedState]
  split
  · next e _ => exact ⟨e, rfl⟩
  · next hnone =>
    rw [failureAt?, Option.map_eq_none_iff, List.find?_eq_none] at hnone
    exact absurd (by simp) (hnone f hf)

theorem solvedState_settled (ws : Workspace) (hs : ∀ f ∈ failures, f.1.output ≠ s ∧ f.1.input ≠ s) :
    ws.solvedState failures s = ws.settledState s := by
  have hnone : failureAt? failures s = none := by
    rw [failureAt?, Option.map_eq_none_iff, List.find?_eq_none]
    intro f hf
    simp [(hs f hf).1, (hs f hf).2]
  rw [solvedState, hnone]

/-- The nodes of components have got fresh instances, and the links among them have been solved one
after another. -/
structure ComponentSifted (ws ws₁ ws' : Workspace) (seeds : List SocketId) (links : List Link)
    (z : TyVar → Ty) (accepted : List Link) (failures : List (Link × TypeError)) : Prop where
  refreshed : Refreshed ws ws₁ (ws.graph.component seeds).nodes
  finished : Finished ws₁ ws' (ws.graph.component seeds).sockets z (ws.solvedState failures)
  principal : MostGeneral z (accepted.map (Link.equation ws₁.stored))
  sifted : Sifted (fun ls => ∃ θ, Solves θ (ls.map (Link.equation ws₁.stored))) [] links accepted
    (failures.map Prod.fst)
  reason : ∀ f ∈ failures, f.2.IsClash

/-- The nodes of components have got fresh instances, and the links among them have been solved as
far as they can be. -/
structure ComponentSolved (ws ws₁ ws' : Workspace) (seeds : List SocketId) (z : TyVar → Ty)
    (failures : List (Link × TypeError)) (es : List Equation) : Prop where
  refreshed : Refreshed ws ws₁ (ws.graph.component seeds).nodes
  finished : Finished ws₁ ws' (ws.graph.component seeds).sockets z (ws.solvedState failures)
  solved : MostGeneral z es
  equations : ∀ e ∈ es, ∃ a b, ws.graph.Wired a b ∧
    ws.SocketOf (fun n => n ∈ (ws.graph.component seeds).nodes) a ∧
    e = (ws₁.stored a, ws₁.stored b)
  met : ∀ a b, ws.graph.Wired a b →
    ws.SocketOf (fun n => n ∈ (ws.graph.component seeds).nodes) a →
    (ws₁.stored a, ws₁.stored b) ∈ es ∨ ∃ e, (⟨a, b⟩, e) ∈ failures
  failed : ∀ f ∈ failures, ws.graph.Wired f.1.output f.1.input ∧
    ws.SocketOf (fun n => n ∈ (ws.graph.component seeds).nodes) f.1.output ∧
    ∀ θ, Absorbs θ z → (ws₁.stored f.1.output).bind θ ≠ (ws₁.stored f.1.input).bind θ
  reason : ∀ f ∈ failures, f.2.IsClash

/-- What a socket of a solved component has got. -/
theorem ComponentSolved.socket {es : List Equation} {seeds : List SocketId}
    (h : ws.graph.WellFormed) (hs : ComponentSolved ws ws₁ ws' seeds z failures es)
    (hn : n ∈ (ws.graph.component seeds).nodes) {socket : Socket}
    (hsocket : ws'.graph.socket? s = some socket) (hc : ws'.graph.Connected n socket.node) :
    ws.graph.owner? s = some socket.node ∧ ws.graph.Connected n socket.node ∧
      socket.state = ws.solvedState failures s := by
  have hshape := hs.refreshed.sameShape.trans hs.finished.sameShape
  have howner := hshape.owner?_of_socket? hsocket
  have hc := hshape.connected.mp hc
  obtain ⟨_, _, hnew, _⟩ := finished_socket h hs.refreshed hs.finished
    ((Graph.mem_component_sockets h).mpr ⟨_, howner, Graph.component_closed h hn hc⟩)
  rw [hsocket] at hnew
  exact ⟨howner, hc, congrArg Socket.state (Option.some_inj.mp hnew)⟩

/-- Sockets that hang together get the states that their links call for, if none of these links
fails. -/
theorem ComponentSolved.solvedState_settled {es : List Equation} {seeds : List SocketId}
    (hs : ComponentSolved ws ws₁ ws' seeds z failures es)
    (hmet : ∀ f ∈ failures, ¬ ws.SocketOf (ws.graph.Connected n) f.1.output)
    (hsocket : ws.SocketOf (ws.graph.Connected n) s) :
    ws.solvedState failures s = ws.settledState s := by
  obtain ⟨m, hm, hc⟩ := hsocket
  refine Workspace.solvedState_settled ws fun f hf => ⟨?_, ?_⟩
  · rintro rfl
    exact hmet f hf ⟨m, hm, hc⟩
  · -- The output at the other end of a failed link hangs together with its input.
    rintro rfl
    obtain ⟨hw, ⟨k, hk, _⟩, _⟩ := hs.failed f hf
    exact hmet f hf ⟨k, hk, hc.tail ⟨_, _, hm, hk, .inr hw⟩⟩

section Recompute

variable {order : List NodeId} {z : TyVar → Ty}

variable {seeds : List SocketId} (h : ws.graph.WellFormed)
  (hsound : ∀ n node, ws.graph.node? n = some node → node.Sound ws.registry)
include h

theorem refreshed_component (seeds : List SocketId) :
    Refreshed ws ((ws.graph.component seeds).nodes.foldl freshInstance ws)
      (ws.graph.component seeds).nodes :=
  foldl_freshInstance_refreshed h (Graph.component_nodes_nodup h seeds)
    fun _ hn => Graph.component_live hn

theorem recompute_of_cycle {cycle : Dangling}
    (hcycle : ws.graph.topologicalOrder (ws.graph.component seeds).nodes = .error cycle) :
    ws.recompute seeds = (ws.untypedErrors (ws.graph.component seeds).nodes ++ [.dangling cycle],
      ((ws.graph.component seeds).nodes.foldl freshInstance ws).invalidate (.dangling cycle)
        (ws.graph.component seeds).sockets) := by
  simp only [recompute]
  rw [Graph.topologicalOrder_congr (refreshed_component h seeds).sameShape.outline, hcycle]

theorem recompute_of_order
    (horder : ws.graph.topologicalOrder (ws.graph.component seeds).nodes = .ok order) :
    ∃ ws₁ solved, ws₁ = (ws.graph.component seeds).nodes.foldl freshInstance ws ∧
      solved = Solver.empty.solveLinks ws₁.typeOf? (ws.graph.linksInto order) ∧
      ws.recompute seeds =
        (ws.untypedErrors (ws.graph.component seeds).nodes ++ solved.2.map Prod.snd,
          ws₁.settle solved.1 solved.2 (ws.graph.component seeds).sockets) := by
  have houtline := (refreshed_component h seeds).sameShape.outline
  refine ⟨_, _, rfl, rfl, ?_⟩
  simp only [recompute]
  rw [Graph.topologicalOrder_congr houtline, horder]
  simp only [Graph.linksInto_congr houtline]

/-- If there is an order, the links of the components are solved one after another. -/
theorem recompute_sifted
    (horder : ws.graph.topologicalOrder (ws.graph.component seeds).nodes = .ok order) :
    ∃ ws₁ z accepted failures,
      ComponentSifted ws ws₁ (ws.recompute seeds).2 seeds (ws.graph.linksInto order) z accepted
        failures ∧
      (ws.recompute seeds).1 =
        ws.untypedErrors (ws.graph.component seeds).nodes ++ failures.map Prod.snd := by
  have hr := refreshed_component h seeds
  obtain ⟨ws₁, solved, hws₁, hsolved, heq⟩ := recompute_of_order h horder
  rw [← hws₁] at hr
  have htypes : ∀ s m, ws.graph.owner? s = some m → ws₁.typeOf? s = some (ws₁.stored s) :=
    fun s m hs => typeOf?_eq_stored ((hr.sameShape.owner? s).trans hs)
  obtain ⟨hlay, accepted, hsifted, hz⟩ :
      solved.1.Layered ∧ ∃ accepted, Sifted _ [] (ws.graph.linksInto order) accepted _ ∧ _ :=
    hsolved ▸ Solver.solveLinks_sifted fun l hl => by
      obtain ⟨hw, m, hm, _⟩ := (Graph.mem_linksInto_order h horder).mp hl
      obtain ⟨k, _, hk⟩ := h.wired_input _ _ hw
      exact ⟨htypes _ m hm, htypes _ k (Graph.owner?_eq_some_iff.mpr ⟨_, hk⟩)⟩
  have hstate : (fun s => match failureAt? solved.2 s with
      | some e => SocketState.invalid e
      | none => ws₁.settledState s) = ws.solvedState solved.2 := by
    funext s
    rw [solvedState, hr.sameShape.settledState]
  refine ⟨ws₁, solved.1.image, accepted, solved.2, ⟨hr, ?_, hz, hsifted, fun f hf => ?_⟩,
    by rw [heq]⟩
  · rw [heq, ← hstate]
    exact settle_finished ws₁ hlay solved.2 (Graph.component_sockets_nodup h seeds)
  · rw [hsolved] at hf
    exact Solver.solveLinks_clash hf

theorem ComponentSifted.solved {accepted : List Link}
    (horder : ws.graph.topologicalOrder (ws.graph.component seeds).nodes = .ok order)
    (hs : ComponentSifted ws ws₁ ws' seeds (ws.graph.linksInto order) z accepted failures) :
    ComponentSolved ws ws₁ ws' seeds z failures (accepted.map (Link.equation ws₁.stored)) := by
  have hlinks : ∀ l : Link, (l ∈ accepted ∨ l ∈ failures.map Prod.fst) ↔
      ws.graph.Wired l.output l.input ∧
        ws.SocketOf (fun n => n ∈ (ws.graph.component seeds).nodes) l.output :=
    fun l => hs.sifted.mem_iff.symm.trans (Graph.mem_linksInto_order h horder)
  refine ⟨hs.refreshed, hs.finished, hs.principal, fun e he => ?_, fun a b hw ha => ?_,
    fun f hf => ?_, hs.reason⟩
  · obtain ⟨l, hl, rfl⟩ := List.mem_map.mp he
    obtain ⟨hw, ha⟩ := (hlinks l).mp (.inl hl)
    exact ⟨l.output, l.input, hw, ha, rfl⟩
  · refine ((hlinks ⟨a, b⟩).mpr ⟨hw, ha⟩).imp (fun hl => List.mem_map.mpr ⟨_, hl, rfl⟩) fun hl => ?_
    obtain ⟨⟨l, e⟩, hf, rfl⟩ := List.mem_map.mp hl
    exact ⟨e, hf⟩
  · have hf : f.1 ∈ failures.map Prod.fst := List.mem_map_of_mem hf
    obtain ⟨hw, ha⟩ := (hlinks f.1).mp (.inr hf)
    refine ⟨hw, ha, fun θ hθ heq => hs.sifted.not_fits ?_ hf ⟨θ, ?_⟩⟩
    · rintro ls ls' hsub ⟨θ, hθ⟩
      refine ⟨θ, fun e he => ?_⟩
      obtain ⟨l, hl, rfl⟩ := List.mem_map.mp he
      exact hθ _ (List.mem_map_of_mem (hsub l hl))
    · rw [List.nil_append, List.map_append, solves_append]
      exact ⟨(hs.principal.absorbs_iff θ).mp hθ, solves_cons.mpr ⟨heq, solves_nil θ⟩⟩

theorem recompute_solved
    (horder : ws.graph.topologicalOrder (ws.graph.component seeds).nodes = .ok order) :
    ∃ ws₁ z failures es, ComponentSolved ws ws₁ (ws.recompute seeds).2 seeds z failures es ∧
      (ws.recompute seeds).1 =
        ws.untypedErrors (ws.graph.component seeds).nodes ++ failures.map Prod.snd := by
  obtain ⟨ws₁, z, accepted, failures, hs, herrors⟩ := recompute_sifted h horder
  exact ⟨ws₁, z, failures, _, hs.solved h horder, herrors⟩

/-- A rebuild leaves a socket as it was, or gives it a type with variables from the supply. -/
theorem recompute_redrawn (seeds : List SocketId) : Redrawn ws (ws.recompute seeds).2 := by
  cases horder : ws.graph.topologicalOrder (ws.graph.component seeds).nodes with
  | error cycle =>
    rw [recompute_of_cycle h horder]
    exact (invalidate_finished _ _ (Graph.component_sockets_nodup h seeds)).redrawn h
      (refreshed_component h seeds) mostGeneral_nil fun e he => absurd he List.not_mem_nil
  | ok order =>
    obtain ⟨ws₁, z, failures, es, hs, _⟩ := recompute_solved h horder
    exact hs.finished.redrawn h hs.refreshed hs.solved hs.equations

include hsound in
theorem ComponentSolved.coherent {es : List Equation}
    (hs : ComponentSolved ws ws₁ ws' seeds z failures es)
    (hn : n ∈ (ws.graph.component seeds).nodes)
    (htyped : ∀ m node, ws.graph.Connected n m → ws.graph.node? m = some node →
      node.untyped = none)
    (hranked : ∃ rank : NodeId → Nat, ∀ p c, ws.graph.Connected n p → ws.graph.Feeds p c →
      rank p < rank c) (hmet : ∀ f ∈ failures, ¬ ws.SocketOf (ws.graph.Connected n) f.1.output) :
    ws'.Coherent n := by
  refine hs.finished.coherent h hs.refreshed hs.solved hs.equations hsound hn htyped hranked ?_
    fun s hsocket => .inl (hs.solvedState_settled hmet hsocket)
  rintro a b hw ⟨m, ha, hm⟩
  obtain heq | ⟨e, he⟩ := hs.met a b hw ⟨m, ha, Graph.component_closed h hn hm⟩
  · exact heq
  · exact absurd ⟨m, ha, hm⟩ (hmet _ he)

/-- An invalid socket that is linked is a fault, and so is one of a node without a signature. -/
theorem Finished.faulty {state : SocketId → SocketState} {e : TypeError}
    (hr : Refreshed ws ws₁ (ws.graph.component seeds).nodes)
    (hf : Finished ws₁ ws' (ws.graph.component seeds).sockets z state)
    (hm : m ∈ (ws.graph.component seeds).nodes) (hs : ws.graph.owner? s = some m)
    (hn : ws.graph.Connected n m) (hstate : state s = .invalid e)
    (hfault : (∃ t, ws.graph.peer? s = some t) ∨
      ∃ node, ws.graph.node? m = some node ∧ node.untyped ≠ none) : ws'.Faulty n := by
  have hshape := hr.sameShape.trans hf.sameShape
  obtain ⟨socket, hsocket, hnew, _⟩ :=
    finished_socket h hr hf ((Graph.mem_component_sockets h).mpr ⟨m, hs, hm⟩)
  have hnode : socket.node = m :=
    Option.some_inj.mp ((Graph.owner?_of_socket? hsocket).symm.trans hs)
  refine ⟨s, _, e, hnew, ?_, hstate, hfault.imp ?_ ?_⟩
  · show ws'.graph.Connected n socket.node
    rw [hshape.connected, hnode]
    exact hn
  · rintro ⟨t, ht⟩
    exact ⟨t, by rw [hshape.peer?, ht]⟩
  · rintro ⟨node, hmnode, huntyped⟩
    rw [untyped?, hshape.owner?, hs, Option.bind_some, hshape.node?, hmnode, Option.bind_some]
    exact Option.isSome_iff_ne_none.mpr huntyped

include hsound in
/-- Where there is a cycle all sockets become invalid.  A node without links is not touched by the
cycle and keeps its fresh instance. -/
theorem invalidate_good {e : TypeError} (hr : Refreshed ws ws₁ (ws.graph.component seeds).nodes)
    (hf : Finished ws₁ ws' (ws.graph.component seeds).sockets .var fun _ => .invalid e)
    (hn : n ∈ (ws.graph.component seeds).nodes) : ws'.Good n := by
  obtain ⟨node, hnode⟩ := Graph.component_live hn
  by_cases hlinked : ∃ b, ws.graph.Linked n b
  · obtain ⟨b, hb⟩ := hlinked
    obtain ⟨s, t, hs, hp, _⟩ := (Graph.linked_iff_peer h).mp hb
    exact .inr (hf.faulty h hr hn hs (.refl ws.graph n) rfl (.inl ⟨t, hp⟩))
  · have hself : ∀ m, ws.graph.Connected n m → m = n := fun m => Graph.connected_of_isolated hlinked
    by_cases htyped : node.untyped = none
    · refine .inl (hf.coherent h hr mostGeneral_nil (fun e he => absurd he List.not_mem_nil) hsound
        hn (fun m node' hm hnode' => ?_) ⟨fun _ => 0, fun p c hp hfeeds => ?_⟩
        (fun a b hw ⟨m, ha, hm⟩ => ?_) fun s _ => .inr ⟨e, rfl⟩)
      · rw [hself m hm, hnode] at hnode'
        cases hnode'
        exact htyped
      · rw [hself p hp] at hfeeds
        exact absurd ⟨c, hfeeds.linked⟩ hlinked
      · obtain ⟨k, _, hk⟩ := h.wired_input a b hw
        rw [hself m hm] at ha
        exact absurd ⟨k, a, b, ha, Graph.owner?_eq_some_iff.mpr ⟨_, hk⟩, .inl hw⟩ hlinked
    · exact .inr (hf.faulty h hr hn (Graph.owner?_output h hnode) (.refl ws.graph n) rfl
        (.inr ⟨node, hnode, htyped⟩))

include hsound in
/-- Everything that hangs together with the given sockets is rebuilt. -/
theorem recompute_rebuilt (seeds : List SocketId) :
    Rebuilt ws (ws.recompute seeds).2 fun n => n ∈ (ws.graph.component seeds).nodes := by
  cases horder : ws.graph.topologicalOrder (ws.graph.component seeds).nodes with
  | error cycle =>
    have hr := refreshed_component h seeds
    have hf := invalidate_finished ((ws.graph.component seeds).nodes.foldl freshInstance ws)
      (.dangling cycle) (Graph.component_sockets_nodup h seeds)
    rw [recompute_of_cycle h horder]
    exact hf.rebuilt h hr mostGeneral_nil (fun e he => absurd he List.not_mem_nil)
      fun n hn => invalidate_good h hsound hr hf hn
  | ok order =>
    obtain ⟨ws₁, z, failures, es, hs, _⟩ := recompute_solved h horder
    refine hs.finished.rebuilt h hs.refreshed hs.solved hs.equations fun n hn => ?_
    have hD : ∀ m, ws.graph.Connected n m → m ∈ (ws.graph.component seeds).nodes :=
      fun m hm => Graph.component_closed h hn hm
    by_cases huntyped : ∃ m node, ws.graph.Connected n m ∧ ws.graph.node? m = some node ∧
        node.untyped ≠ none
    · obtain ⟨m, node, hm, hnode, huntyped⟩ := huntyped
      have ho := Graph.owner?_output h hnode
      obtain ⟨e, he⟩ := solvedState_untyped ws failures ho hnode huntyped
      exact .inr (hs.finished.faulty h hs.refreshed (hD m hm) ho hm he
        (.inr ⟨node, hnode, huntyped⟩))
    by_cases hfail : ∃ f ∈ failures, ws.SocketOf (ws.graph.Connected n) f.1.output
    · obtain ⟨f, hmem, m, ho, hm⟩ := hfail
      obtain ⟨e, he⟩ := solvedState_failure ws hmem
      refine .inr (hs.finished.faulty h hs.refreshed (hD m hm) ho hm he (.inl ⟨f.1.input, ?_⟩))
      exact (Graph.peer?_eq_some_iff h.links).mpr (.inl (hs.failed f hmem).1)
    refine .inl (hs.coherent h hsound hn (fun m node hm hnode => ?_) ?_ fun f hf hsocket =>
      hfail ⟨f, hf, hsocket⟩)
    · exact Classical.byContradiction fun hne => huntyped ⟨m, node, hm, hnode, hne⟩
    · obtain ⟨rank, hrank⟩ := (Graph.topologicalOrder_ok h horder).2
      exact ⟨rank, fun p c hp hfeeds =>
        hrank p c (hD p hp) (hD c (hp.tail hfeeds.linked)) hfeeds⟩

end Recompute

end Workspace
end BlockGraph
