import BlockGraph.Proofs.Workspace.Principal

/-!
# Connecting agrees with rebuilding

A link can be made in two ways.  `connect` takes the stored types as they are and
solves the equations that the link adds.  Attaching the link and rebuilding forgets
the stored types: every node gets a fresh instance, and all links are solved again by
the other solver.

Both look for the types that fit the new component.  If there are none, `connect` is
refused and the rebuilt component has an invalid socket.  If there are some, both end
with principal ones and with the states that the links call for, so the two results
differ by a renaming of variables.
-/

namespace BlockGraph
namespace Workspace

variable {ws ws' : Workspace} {o i seed : SocketId} {p c m n : NodeId} {node : Node}
  {seeds : List SocketId} {z : TyVar → Ty}

/-! ## Rebuilding what can be solved -/

/-- Some types fit what hangs together with a node, and no node there depends on itself. -/
structure Solvable (ws : Workspace) (n : NodeId) : Prop where
  typed : ∀ m node, ws.graph.Connected n m → ws.graph.node? m = some node → node.untyped = none
  ranked : ∃ rank : NodeId → Nat, ∀ p c, ws.graph.Connected n p → ws.graph.Feeds p c →
    rank p < rank c
  typing : ∃ A, ws.Typing (ws.graph.Connected n) A

/-- Every socket that hangs together with a node has the state that its links call for. -/
def StatesSettled (ws : Workspace) (n : NodeId) : Prop :=
  ∀ s socket, ws.graph.socket? s = some socket → ws.graph.Connected n socket.node →
    socket.state = ws.settledState s

theorem Coherent.solvable (h : ws.Coherent n) : ws.Solvable n :=
  ⟨h.typed, h.ranked, ws.stored, h.principal.self⟩

/-- Two workspaces hang together alike, and the same types fit both. -/
structure SameTypings (ws ws' : Workspace) : Prop where
  outline : ws'.graph.outline = ws.graph.outline
  untyped : ∀ n, (ws'.graph.node? n).bind Node.untyped = (ws.graph.node? n).bind Node.untyped
  typing : ∀ K A, ws'.Typing K A ↔ ws.Typing K A

theorem SameShape.sameTypings (h : SameShape ws ws') : SameTypings ws ws' :=
  ⟨h.outline, fun n => by rw [h.node?], fun _ _ => h.typing⟩

theorem SameTypings.settledState (h : SameTypings ws ws') (s : SocketId) :
    ws'.settledState s = ws.settledState s := by
  have huntyped : ws'.untyped? s = ws.untyped? s := by
    rw [untyped?, untyped?, Graph.owner?_congr h.outline]
    cases ws.graph.owner? s with
    | none => rfl
    | some n => exact h.untyped n
  rw [Workspace.settledState, Workspace.settledState, huntyped, Graph.peer?_eq_of_outline h.outline]

theorem Solvable.of_sameTypings (h : SameTypings ws ws') (hs : ws.Solvable n) : ws'.Solvable n := by
  have hconnected := Graph.connected_congr h.outline
  obtain ⟨rank, hrank⟩ := hs.ranked
  obtain ⟨A, hA⟩ := hs.typing
  refine ⟨fun m node hm hnode => ?_, ?_, ?_⟩
  · have huntyped := h.untyped m
    rw [hnode, Option.bind_some] at huntyped
    rw [huntyped, Option.bind_eq_none_iff]
    exact fun node₀ hnode₀ => hs.typed m node₀ (hconnected ▸ hm) hnode₀
  · rw [hconnected, Graph.feeds_congr h.outline]
    exact ⟨rank, hrank⟩
  · rw [hconnected]
    exact ⟨A, (h.typing _ A).mpr hA⟩

theorem Solvable.of_sameShape (h : SameShape ws ws') (hs : ws.Solvable n) : ws'.Solvable n :=
  hs.of_sameTypings h.sameTypings

theorem StatesSettled.of_connected (hc : ws.graph.Connected n m) (hs : ws.StatesSettled m) :
    ws.StatesSettled n :=
  fun s socket hsocket hn => hs s socket hsocket (hc.symm.trans hn)

section Transport

variable (h : ws.graph.WellFormed) (h' : ws'.graph.WellFormed)
  (hsame : ∀ m, ws.graph.Connected n m → SameAt ws ws' m)
include h h' hsame

theorem Solvable.of_same (hs : ws.Solvable n) : ws'.Solvable n := by
  obtain ⟨A, hA⟩ := hs.typing
  exact ⟨typed_of_same h h' hsame hs.typed, ranked_of_same h h' hsame hs.ranked, A,
    typing_of_same h h' hsame hA⟩

theorem StatesSettled.of_same (hs : ws.StatesSettled n) : ws'.StatesSettled n := by
  intro s socket hsocket hc
  obtain ⟨hsocket, hc, hsettled⟩ := state_of_same h h' hsame hsocket hc
  rw [hsettled]
  exact hs s socket hsocket hc

end Transport

/-- A component whose sockets have the states that their links call for has no invalid socket, if
all of its nodes have signatures. -/
theorem StatesSettled.valid (h : ws.graph.WellFormed) (hstates : ws.StatesSettled n)
    (hsolvable : ws.Solvable n) (hseed : ws.graph.owner? seed = some n) : ws.Valid seed := by
  intro s hs socket hsocket e hstate
  obtain ⟨m, hm, hmem⟩ := (Graph.mem_component_sockets h).mp hs
  have hc := (Graph.mem_component_singleton h hseed).mp hmem
  obtain ⟨node, hnode, _⟩ := Graph.owner?_node h hm
  have hown : socket.node = m :=
    Option.some_inj.mp ((Graph.owner?_of_socket? hsocket).symm.trans hm)
  have huntyped : ws.untyped? s = none := by
    rw [untyped?, hm, Option.bind_some, hnode, Option.bind_some]
    exact hsolvable.typed m node hc hnode
  rw [hstates s socket hsocket (hown ▸ hc), settledState, huntyped] at hstate
  cases hpeer : ws.graph.peer? s <;> rw [hpeer] at hstate <;> cases hstate

theorem Solvable.of_connected (hc : ws.graph.Connected n m) (hs : ws.Solvable m) :
    ws.Solvable n := by
  have heq : ws.graph.Connected m = ws.graph.Connected n :=
    funext fun _ => propext ⟨hc.trans, hc.symm.trans⟩
  obtain ⟨htyped, hranked, htyping⟩ := hs
  rw [heq] at htyped hranked htyping
  exact ⟨htyped, hranked, htyping⟩

/-- Types that fit are an instance of the fresh ones that meets every link, so no link of a
component can fail that some types fit. -/
theorem ComponentSolved.not_failed {ws₁ : Workspace} {failures : List (Link × TypeError)}
    {es : List Equation} (h : ws.graph.WellFormed)
    (hsound : ∀ n node, ws.graph.node? n = some node → node.Sound ws.registry)
    (hs : ComponentSolved ws ws₁ ws' seeds z failures es)
    (hn : n ∈ (ws.graph.component seeds).nodes) (hsolvable : ws.Solvable n) :
    ∀ f ∈ failures, ¬ ws.SocketOf (ws.graph.Connected n) f.1.output := by
  have hD : ∀ m, ws.graph.Connected n m → m ∈ (ws.graph.component seeds).nodes :=
    fun m hm => Graph.component_closed h hn hm
  have hend : ∀ a b, ws.graph.Wired a b → ws.SocketOf (ws.graph.Connected n) a →
      ws.SocketOf (ws.graph.Connected n) b := by
    rintro a b hw ⟨k, ha, hk⟩
    obtain ⟨j, _, hj⟩ := h.wired_input a b hw
    have hb := Graph.owner?_eq_some_iff.mpr ⟨_, hj⟩
    exact ⟨j, hb, hk.tail ⟨a, b, ha, hb, .inl hw⟩⟩
  have hgenerates := (hs.refreshed.generates h hD hsound hsolvable.typed).solve hs.solved
    (W := fun a b => ws.graph.Wired a b ∧ ws.SocketOf (ws.graph.Connected n) a ∧
      (ws₁.stored a, ws₁.stored b) ∈ es)
    (fun a b ⟨hw, ha, hmem⟩ => ⟨ha, hend a b hw ha, hmem⟩)
    fun e he => (equation_divided h hs.refreshed hs.equations hn he).imp_left
      fun ⟨a, b, hw, ha, heq⟩ => ⟨a, b, ⟨hw, ha, heq ▸ he⟩, heq⟩
  obtain ⟨A, hA⟩ := hsolvable.typing
  obtain ⟨hnodes, hwires⟩ := typing_iff.mp hA
  obtain ⟨θ, hθ⟩ := hgenerates.instance_of_mem ⟨hnodes, fun a b ⟨hw, ha, _⟩ => hwires a b ⟨hw, ha⟩⟩
  intro f hf ho
  obtain ⟨hw, _, hne⟩ := hs.failed f hf
  have heq := hwires _ _ ⟨hw, ho⟩
  rw [hθ _ ho, hθ _ (hend _ _ hw ho), TyTerm.bind_bind, TyTerm.bind_bind] at heq
  exact hne _ hs.solved.idempotent.comp heq

theorem ComponentSolved.statesSettled {ws₁ : Workspace} {failures : List (Link × TypeError)}
    {es : List Equation} (h : ws.graph.WellFormed)
    (hs : ComponentSolved ws ws₁ ws' seeds z failures es)
    (hn : n ∈ (ws.graph.component seeds).nodes)
    (hmet : ∀ f ∈ failures, ¬ ws.SocketOf (ws.graph.Connected n) f.1.output) :
    ws'.StatesSettled n := by
  intro s socket hsocket hc
  obtain ⟨howner, hc, hstate⟩ := hs.socket h hn hsocket hc
  rw [hstate, (hs.refreshed.sameShape.trans hs.finished.sameShape).settledState]
  exact hs.solvedState_settled hmet ⟨_, howner, hc⟩

/-- What is rebuilt gets the states that its links call for, if some types fit it and nothing that
is rebuilt with it has a cycle. -/
theorem recompute_statesSettled (h : ws.graph.WellFormed)
    (hsound : ∀ n node, ws.graph.node? n = some node → node.Sound ws.registry)
    (hn : n ∈ (ws.graph.component seeds).nodes)
    (horder : ∃ order, ws.graph.topologicalOrder (ws.graph.component seeds).nodes = .ok order)
    (hsolvable : ws.Solvable n) : (ws.recompute seeds).2.StatesSettled n := by
  obtain ⟨order, horder⟩ := horder
  obtain ⟨ws₁, z, failures, es, hs, _⟩ := recompute_solved h horder
  exact hs.statesSettled h hn (hs.not_failed h hsound hn hsolvable)

theorem resolveAll_statesSettled (h : ws.Sound) (hsolvable : ws.Solvable n)
    (hn : ws.graph.node? n = some node) : ws.resolveAll.2.StatesSettled n := by
  refine resolveAll_holds StatesSettled.of_same h (fun ws₀ seeds hsound hshape hnodes => ?_) hn
  have hsolvable := hsolvable.of_sameShape hshape
  obtain ⟨rank, hrank⟩ := hsolvable.ranked
  have horder := Graph.topologicalOrder_complete hsound.graph fun a b ha _ =>
    hrank a b ((hnodes a).mp ha)
  exact recompute_statesSettled hsound.graph hsound.nodes ((hnodes n).mpr (.refl _ n)) horder
    hsolvable

/-! ## States after a link -/

/-- The states of a valid component of a settled workspace are those that the links call for. -/
theorem Valid.statesSettled (h : ws.graph.WellFormed) (hvalid : ws.Valid seed)
    (hcoherent : ws.Coherent n) (hseed : ws.graph.owner? seed = some n) : ws.StatesSettled n := by
  intro s socket hs hc
  refine (hcoherent.states s socket hs hc).resolve_right ?_
  rintro ⟨e, hstate⟩
  exact hvalid.ne_invalid h hseed hs hc e hstate

theorem LinkMade.statesSettled (hm : LinkMade ws ws' o i p z) (h : ws.graph.WellFormed)
    (hl : Graph.Linkable ws.graph o i p c) (hp : ws.StatesSettled p) (hc : ws.StatesSettled c) :
    ws'.StatesSettled p := by
  intro s socket hs hJ
  have hJ := hm.sameShape.connected.mp hJ
  have hown : ws.graph.owner? s = some socket.node := hm.sameShape.owner?_of_socket? hs
  obtain ⟨old, hold, hnode⟩ := Option.map_eq_some_iff.mp hown
  have hnew := hm.socket s old ⟨_, hown, hJ⟩ hold
  rw [hs] at hnew
  cases hnew
  rw [hm.sameShape.settledState]
  by_cases hend : s = o ∨ s = i
  · exact if_pos hend
  · rw [settledState_attached h hl hend]
    show (if s = o ∨ s = i then _ else old.state) = _
    rw [if_neg hend]
    exact (hl.connected_iff.mp hJ).elim (hp s old hold) (hc s old hold)

/-! ## Both ways agree -/

theorem isConnectable_iff (hcheck : ws.checkLink ⟨o, i⟩ true = .ok ()) :
    ws.isConnectable ⟨o, i⟩ = true ↔ ∃ solution, ws.solveLink ⟨o, i⟩ = .ok solution := by
  rw [isConnectable, hcheck]
  cases ws.solveLink ⟨o, i⟩ with
  | ok solution => exact ⟨fun _ => ⟨solution, rfl⟩, fun _ => rfl⟩
  | error e => simp [Except.toBool]

theorem connect_iff (hcheck : ws.checkLink ⟨o, i⟩ true = .ok ()) :
    (∃ ws', connect o i ws = .ok () ws') ↔ ∃ solution, ws.solveLink ⟨o, i⟩ = .ok solution := by
  simp only [connect, hcheck]
  cases ws.solveLink ⟨o, i⟩ with
  | ok solution => simp
  | error e => simp

/-- Rebuilding leaves a component without invalid sockets if some types fit it, and only then. -/
theorem resolveAll_valid_iff (h : ws.Sound) (hseed : ws.graph.owner? seed = some n)
    (htyped : ∀ m node, ws.graph.Connected n m → ws.graph.node? m = some node →
      node.untyped = none)
    (hranked : ∃ rank : NodeId → Nat, ∀ p c, ws.graph.Connected n p → ws.graph.Feeds p c →
      rank p < rank c) :
    ws.resolveAll.2.Valid seed ↔ ∃ A, ws.Typing (ws.graph.Connected n) A := by
  have hshape := resolveAll_sameShape h
  have hgraph := hshape.wellFormed.mpr h.graph
  have hseed' : ws.resolveAll.2.graph.owner? seed = some n := (hshape.owner? seed).trans hseed
  constructor
  · intro hvalid
    have hcoherent := hvalid.coherent hgraph (resolveAll_settled h) hseed'
    exact (hcoherent.solvable.of_sameShape hshape.symm).typing
  · intro htyping
    obtain ⟨node, hnode, _⟩ := Graph.owner?_node h.graph hseed
    have hsolvable : ws.Solvable n := ⟨htyped, hranked, htyping⟩
    exact (resolveAll_statesSettled h hsolvable hnode).valid hgraph
      (hsolvable.of_sameShape hshape) hseed'

/-- Principal types and settled states are unique up to a renaming. -/
theorem SameTypings.exists_renaming (hsame : SameTypings ws ws') (h : ws.graph.WellFormed)
    (hc : ws.Coherent n) (hc' : ws'.Coherent n) (hstates : ws.StatesSettled n)
    (hstates' : ws'.StatesSettled n) (hseed : ws.graph.owner? seed = some n) :
    ∃ π : Equiv.Perm TyVar, ∀ s ∈ (ws.graph.component [seed]).sockets, ∃ socket,
      ws.graph.socket? s = some socket ∧
        ws'.graph.socket? s = some { socket with ty := socket.ty.map π } := by
  have hconnected := Graph.connected_congr hsame.outline
  have hsocket : ∀ s ∈ (ws.graph.component [seed]).sockets,
      ws.SocketOf (ws.graph.Connected n) s := by
    intro s hs
    obtain ⟨m, hm, hmem⟩ := (Graph.mem_component_sockets h).mp hs
    exact ⟨m, hm, (Graph.mem_component_singleton h hseed).mp hmem⟩
  have hprincipal : Generates ws'.stored (ws.SocketOf (ws.graph.Connected n))
      (ws.Typing (ws.graph.Connected n)) := by
    have hp := hc'.principal
    rw [hconnected, socketOf_congr hsame.outline] at hp
    exact hp.congr_set fun A => (hsame.typing _ A).symm
  obtain ⟨π, hπ⟩ := hc.principal.exists_perm hprincipal hsocket
  refine ⟨π, fun s hs => ?_⟩
  obtain ⟨m, hm, hconn⟩ := hsocket s hs
  obtain ⟨socket, hold, hnode⟩ := Option.map_eq_some_iff.mp hm
  obtain ⟨ty, state, hnew⟩ := Graph.socket?_congr hsame.outline hold
  have hty : ty = socket.ty.map π := by
    have hstored := hπ s hs
    rwa [stored_eq hold, stored_eq hnew] at hstored
  have hconn : ws.graph.Connected n socket.node := hnode ▸ hconn
  have hstate : state = socket.state := by
    rw [hstates s socket hold hconn, ← hsame.settledState]
    exact hstates' s _ hnew (hconnected ▸ hconn)
  exact ⟨socket, hold, by rw [hnew, hty, hstate]⟩

section Link

variable (h : ws.Sound) (hl : Graph.Linkable ws.graph o i p c) (hp : ws.Coherent p)
  (hc : ws.Coherent c)
include h hl hp hc

/-- A link can be solved if some types fit the component that it makes, and only then. -/
theorem solveLink_iff_typing : (∃ solution, ws.solveLink ⟨o, i⟩ = .ok solution) ↔
    ∃ A, (ws.attached o i).Typing (ws.Joined o i p) A := by
  constructor
  · rintro ⟨⟨σ, component, supply⟩, hok⟩
    obtain ⟨_, _, hz⟩ := solveLink_ok h.graph hl hok
    exact ⟨_, (generates_attached h hl hp hc hz).self⟩
  · rintro ⟨A, hA⟩
    obtain ⟨θ, hθ, _⟩ := (typing_attached_iff h hl hp hc).mp hA
    cases hsolve : ws.solveLink ⟨o, i⟩ with
    | ok solution => exact ⟨solution, rfl⟩
    | error e => exact absurd hθ (solveLink_error h.graph hl hsolve θ)

theorem resolveAll_attached_valid_iff (hcycle : ¬ Relation.ReflTransGen ws.graph.Feeds c p) :
    (ws.attached o i).resolveAll.2.Valid o ↔
      ∃ A, (ws.attached o i).Typing (ws.Joined o i p) A := by
  refine resolveAll_valid_iff (attached_sound h hl) hl.owner_output (fun m node hm hnode => ?_)
    (hl.exists_rank hcycle hp.ranked hc.ranked)
  rcases hl.connected_iff.mp hm with hm | hm
  · exact hp.typed m node hm hnode
  · exact hc.typed m node hm hnode

/-- The new component is the same after connecting and after rebuilding, up to a renaming. -/
theorem LinkMade.exists_renaming {z : TyVar → Ty} (hm : LinkMade ws ws' o i p z)
    (hcycle : ¬ Relation.ReflTransGen ws.graph.Feeds c p)
    (hz : MostGeneral z (ws.linkEquations o i)) (hstates : ws.StatesSettled p)
    (hstates' : ws.StatesSettled c) :
    ∃ π : Equiv.Perm TyVar, ∀ s ∈ (ws'.graph.component [o]).sockets, ∃ socket,
      ws'.graph.socket? s = some socket ∧ (ws.attached o i).resolveAll.2.graph.socket? s =
        some { socket with ty := socket.ty.map π } := by
  have hattached := attached_sound h hl
  have hshape := resolveAll_sameShape hattached
  have hseed : (ws.attached o i).graph.owner? o = some p := hl.owner_output
  have hcoherent := hm.coherent h hl hcycle hz hp hc
  have hsolvable := hcoherent.solvable.of_sameShape hm.sameShape.symm
  have hvalid := (resolveAll_attached_valid_iff h hl hp hc hcycle).mpr hsolvable.typing
  have hrebuilt := hvalid.coherent (hshape.wellFormed.mpr hattached.graph)
    (resolveAll_settled hattached) ((hshape.owner? o).trans hseed)
  obtain ⟨node, hnode, _⟩ := Graph.owner?_node hattached.graph hseed
  exact (hm.sameShape.symm.trans hshape).sameTypings.exists_renaming
    (hm.sameShape.wellFormed.mpr hattached.graph) hcoherent hrebuilt
    (hm.statesSettled h.graph hl hstates hstates')
    (resolveAll_statesSettled hattached hsolvable hnode) ((hm.owner? o).trans hseed)

end Link

/-- Where an output may feed an input, and neither has an invalid socket in its component, a link
can be connected if rebuilding after it is attached leaves no invalid socket in the new component,
and only then.  Connecting and rebuilding end with the same links and, up to one renaming of type
variables, with the same sockets in that component. -/
theorem connect_agrees (h : ws.Reached) (hcheck : ws.checkLink ⟨o, i⟩ true = .ok ())
    (ho : ws.Valid o) (hi : ws.Valid i) :
    ∃ copy, attach o i ws = .ok () copy ∧
      (ws.isConnectable ⟨o, i⟩ = true ↔ ∃ ws', connect o i ws = .ok () ws') ∧
      ((∃ ws', connect o i ws = .ok () ws') ↔ copy.resolveAll.2.Valid o) ∧
      ∀ ws', connect o i ws = .ok () ws' →
        ws'.graph.links = copy.resolveAll.2.graph.links ∧
        ws'.graph.component [o] = copy.resolveAll.2.graph.component [o] ∧
        ∃ π : Equiv.Perm TyVar, ∀ s ∈ (ws'.graph.component [o]).sockets, ∃ socket,
          ws'.graph.socket? s = some socket ∧
            copy.resolveAll.2.graph.socket? s = some { socket with ty := socket.ty.map π } := by
  have hsound := h.sound
  obtain ⟨p, c, hl, hcycle⟩ := checkLink_acyclic hsound.graph hcheck
  have hp := ho.coherent hsound.graph h.settled hl.owner_output
  have hc := hi.coherent hsound.graph h.settled hl.owner_input
  refine ⟨ws.attached o i, attach_eq hl,
    (isConnectable_iff hcheck).trans (connect_iff hcheck).symm, ?_, fun ws' hok => ?_⟩
  · rw [connect_iff hcheck, solveLink_iff_typing hsound hl hp hc,
      resolveAll_attached_valid_iff hsound hl hp hc hcycle]
  · obtain ⟨p', c', z, hl', _, hz, hm⟩ := connect_ok hsound.graph hok
    cases hl'.owner_output.symm.trans hl.owner_output
    have hshape := hm.sameShape.symm.trans (resolveAll_sameShape (attached_sound hsound hl))
    refine ⟨(Graph.links_congr hshape.outline).symm,
      (Graph.component_congr hshape.outline _).symm, ?_⟩
    exact hm.exists_renaming hsound hl hp hc hcycle hz
      (ho.statesSettled hsound.graph hp hl.owner_output)
      (hi.statesSettled hsound.graph hc hl.owner_input)

/-- A list of two items, and a list of one whose item is a list too. -/
def nestedLists : List Action :=
  [.addNode (.list 2), .addNode (.list 1), .addNode (.list 1), .attach 5 4, .resolveAll]

/-- The second list becomes an item of the first. -/
theorem connect_agrees_nestedLists :
    ∃ ws copy ws', empty.runAll nestedLists = some ws ∧ ws.checkLink ⟨3, 1⟩ true = .ok () ∧
      ws.Valid 3 ∧ ws.Valid 1 ∧ attach 3 1 ws = .ok () copy ∧ connect 3 1 ws = .ok () ws' ∧
      copy.resolveAll.2.Valid 3 ∧
      ∃ π : Equiv.Perm TyVar, ∀ s ∈ (ws'.graph.component [3]).sockets, ∃ socket,
        ws'.graph.socket? s = some socket ∧
          copy.resolveAll.2.graph.socket? s = some { socket with ty := socket.ty.map π } := by
  have hrun : (empty.runAll nestedLists).isSome := by cbv
  have hsome := (Option.some_get hrun).symm
  have hreached : ((empty.runAll nestedLists).get hrun).Reached :=
    ⟨nestedLists, resolvedAtEnd_append (nestedLists.take 4), hsome⟩
  have hvalid := valid_of_invalidSockets hreached.sound.graph (by cbv)
  have hcheck : ((empty.runAll nestedLists).get hrun).checkLink ⟨3, 1⟩ true = .ok () := by cbv
  have hconnectable : ((empty.runAll nestedLists).get hrun).isConnectable ⟨3, 1⟩ = true := by cbv
  obtain ⟨copy, hattach, hconnect, hrebuilt, hsame⟩ :=
    connect_agrees hreached hcheck (hvalid 3) (hvalid 1)
  obtain ⟨ws', hok⟩ := hconnect.mp hconnectable
  exact ⟨_, copy, ws', hsome, hcheck, hvalid 3, hvalid 1, hattach, hok, hrebuilt.mp ⟨ws', hok⟩,
    (hsame ws' hok).2.2⟩

end Workspace
end BlockGraph
