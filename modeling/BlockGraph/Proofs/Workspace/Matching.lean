import BlockGraph.Proofs.Workspace.Revision

/-!
# States match the wiring

The state of a socket is stored, and edits keep it up to date piece by piece.  Of a
component that is coherent the states are known already.  Here they are followed
everywhere, also where a link has failed, where a node has no signature and where
nodes depend on each other: a socket that is not bound has no link, a bound one has
the type of the socket at the other end, and the sockets of a node without a signature
are invalid.

Every edit but attaching comes down to four kinds of steps.  It rebuilds components,
makes one link and carries its solution out, gives another name everywhere, or
rebuilds everything (`Step`).  Each of these keeps the states in step with the links.
-/

namespace BlockGraph
namespace Workspace

variable {ws ws' : Workspace} {m n p c : NodeId} {node : Node} {s o i : SocketId} {socket : Socket}
  {seeds : List SocketId} {z : TyVar → Ty}

/-! ## What an edit comes down to -/

/-- What edits other than attaching are made of. -/
inductive Step (ws : Workspace) : Workspace → Prop
  | rebuilt {ws' : Workspace} (h : RebuiltFrom ws ws') : Step ws ws'
  | linked {ws' : Workspace} {o i : SocketId} {p c : NodeId} {z : TyVar → Ty}
      (hl : Graph.Linkable ws.graph o i p c) (hz : MostGeneral z (ws.linkEquations o i))
      (hm : LinkMade ws ws' o i p z) : Step ws ws'
  | renamed {ws' : Workspace} {F : Node → Node} {old new : String}
      (hr : Renames F old new ws ws') : Step ws ws'
  | resolved : Step ws ws.resolveAll.2

/-- What every step keeps is kept by every edit other than attaching. -/
theorem Action.run_of_step {P : Workspace → Prop} {action : Action}
    (hstep : ∀ ws ws', ws.Sound → Step ws ws' → P ws → P ws') (h : ws.Sound)
    (hattach : ∀ output input, action ≠ .attach output input) (hrun : action.run ws = some ws')
    (hP : P ws) : P ws' := by
  cases action.run_outcome h hrun with
  | rebuilt hb => exact hstep ws ws' h (.rebuilt hb) hP
  | connected hok =>
    obtain ⟨p, c, z, hl, _, hz, hm⟩ := connect_ok h.graph hok
    exact hstep ws ws' h (.linked hl hz hm) hP
  | typeRenamed hok =>
    rcases renameType_ok h.graph hok with ⟨_, rfl⟩ | ⟨registry, _, _, hr, rfl⟩
    · exact hP
    · have hsound := hr.sound_workspace h
      have hretry := retryUntyped_rebuiltFrom hsound
      exact hstep _ _ hsound (.rebuilt hretry) (hstep ws _ h (.renamed hr) hP)
  | ctorRenamed hok => exact hstep ws ws' h (.renamed (renameCtor_ok hok)) hP
  | attached _ => exact absurd rfl (hattach _ _)
  | resolved => exact hstep ws _ h .resolved hP

/-! ## States and links -/

/-- The state of a socket is in step with its links and its node. -/
structure InStep (ws : Workspace) (s : SocketId) (socket : Socket) : Prop where
  unbound : socket.state = .unbound → ws.graph.peer? s = none
  bound : socket.state = .bound →
    ∃ t, ws.graph.peer? s = some t ∧ ws.typeOf? t = some socket.ty
  untyped : ∀ node, ws.graph.node? socket.node = some node → node.untyped ≠ none →
    ∃ e, socket.state = .invalid e

/-- Every socket that hangs together with a node is in step. -/
def Matched (ws : Workspace) (n : NodeId) : Prop :=
  ∀ s socket, ws.graph.socket? s = some socket → ws.graph.Connected n socket.node →
    ws.InStep s socket

theorem inStep_of_invalid (h : ∃ e, socket.state = .invalid e) : ws.InStep s socket := by
  obtain ⟨e, he⟩ := h
  refine ⟨fun hstate => ?_, fun hstate => ?_, fun _ _ _ => ⟨e, he⟩⟩ <;>
  · rw [he] at hstate
    cases hstate

/-- The state that the links call for is in step with them, if a link joins equal types. -/
theorem inStep_of_settledState (hs : ws.graph.socket? s = some socket)
    (hstate : socket.state = ws.settledState s)
    (hpeer : ∀ t, ws.graph.peer? s = some t → ws.typeOf? t = some socket.ty) :
    ws.InStep s socket := by
  cases huntyped : ws.untyped? s with
  | some e => exact inStep_of_invalid ⟨e, by rw [hstate, settledState, huntyped]⟩
  | none =>
    rw [settledState, huntyped] at hstate
    refine ⟨fun hunbound => ?_, fun hbound => ?_, fun node hnode hne => absurd ?_ hne⟩
    · cases hp : ws.graph.peer? s with
      | none => rfl
      | some t =>
        rw [hp, hunbound] at hstate
        cases hstate
    · cases hp : ws.graph.peer? s with
      | some t => exact ⟨t, rfl, hpeer t hp⟩
      | none =>
        rw [hp, hbound] at hstate
        cases hstate
    · rwa [untyped?, Graph.owner?_of_socket? hs, Option.bind_some, hnode] at huntyped

/-- The socket at the other end of a link belongs to a node that hangs together with this one. -/
theorem peer?_owner (h : ws.graph.WellFormed) (hs : ws.graph.owner? s = some m) {t : SocketId}
    (hp : ws.graph.peer? s = some t) :
    ∃ k, ws.graph.owner? t = some k ∧ ws.graph.Connected m k := by
  have hw := (Graph.peer?_eq_some_iff h.links).mp hp
  obtain ⟨k, hk⟩ : ∃ k, ws.graph.owner? t = some k := by
    rcases hw with hw | hw
    · obtain ⟨k, _, hk⟩ := h.wired_input s t hw
      exact ⟨k, Graph.owner?_eq_some_iff.mpr ⟨_, hk⟩⟩
    · obtain ⟨k, hk⟩ := h.wired_output t s hw
      exact ⟨k, Graph.owner?_eq_some_iff.mpr ⟨_, hk⟩⟩
  exact ⟨k, hk, .tail (.refl) ⟨s, t, hs, hk, hw⟩⟩

/-! ## What a step keeps -/

theorem Matched.of_same (h : ws.graph.WellFormed) (h' : ws'.graph.WellFormed)
    (hsame : ∀ m, ws.graph.Connected n m → SameAt ws ws' m) (hmatched : ws.Matched n) :
    ws'.Matched n := by
  intro s socket hs' hc'
  obtain ⟨hs, hc, _⟩ := state_of_same h h' hsame hs' hc'
  have howner := Graph.owner?_of_socket? hs
  have hin := hmatched s socket hs hc
  have hpeer := (hsame _ hc).graph.peer s howner
  refine ⟨fun hstate => hpeer.trans (hin.unbound hstate), fun hstate => ?_, fun node hnode => ?_⟩
  · obtain ⟨t, hp, hty⟩ := hin.bound hstate
    obtain ⟨k, hk, hck⟩ := peer?_owner h howner hp
    refine ⟨t, hpeer.trans hp, ?_⟩
    rw [typeOf?, (hsame _ (hc.trans hck)).graph.socket t hk]
    exact hty
  · exact hin.untyped node ((hsame _ hc).graph.node ▸ hnode)

theorem failureAt?_eq_none {failures : List (Link × TypeError)} (h : failureAt? failures s = none)
    {f : Link × TypeError} (hf : f ∈ failures) : f.1.output ≠ s ∧ f.1.input ≠ s := by
  rw [failureAt?, Option.map_eq_none_iff, List.find?_eq_none] at h
  simpa using h f hf

/-- Where a component is rebuilt, a link either fails and leaves its ends invalid, or makes their
types equal. -/
theorem ComponentSolved.matched {ws₁ : Workspace} {failures : List (Link × TypeError)}
    {es : List Equation} (h : ws.graph.WellFormed)
    (hs : ComponentSolved ws ws₁ ws' seeds z failures es)
    (hn : n ∈ (ws.graph.component seeds).nodes) : ws'.Matched n := by
  have hshape := hs.refreshed.sameShape.trans hs.finished.sameShape
  have hstored : ∀ t k, ws.graph.owner? t = some k → ws.graph.Connected n k →
      ws'.stored t = (ws₁.stored t).bind z := by
    intro t k ht hk
    obtain ⟨_, _, _, hstored⟩ := finished_socket h hs.refreshed hs.finished
      ((Graph.mem_component_sockets h).mpr ⟨k, ht, Graph.component_closed h hn hk⟩)
    exact hstored
  intro s socket hsocket hc
  obtain ⟨howner, hc, hstate⟩ := hs.socket h hn hsocket hc
  cases hfailed : failureAt? failures s with
  | some e =>
    rw [solvedState, hfailed] at hstate
    exact inStep_of_invalid ⟨e, hstate⟩
  | none =>
    rw [solvedState, hfailed] at hstate
    refine inStep_of_settledState hsocket (hstate.trans (hshape.settledState s).symm) fun t hp => ?_
    rw [hshape.peer?] at hp
    obtain ⟨k, hk, hck⟩ := peer?_owner h howner hp
    -- The link has not failed, so its equation is one of those that have been solved.
    have hmet : ∀ a b m, ws.graph.Wired a b → ws.graph.owner? a = some m → ws.graph.Connected n m →
        (a = s ∨ b = s) → (ws₁.stored a).bind z = (ws₁.stored b).bind z := by
      intro a b m hw ha hm hend
      obtain hmet | ⟨e, he⟩ := hs.met a b hw ⟨m, ha, Graph.component_closed h hn hm⟩
      · exact hs.solved.solves _ hmet
      · obtain ⟨hout, hin⟩ := failureAt?_eq_none hfailed he
        exact absurd hend (not_or.mpr ⟨hout, hin⟩)
    rw [typeOf?_eq_stored ((hshape.owner? t).trans hk), ← stored_eq hsocket, hstored s _ howner hc,
      hstored t k hk (hc.trans hck)]
    rcases (Graph.peer?_eq_some_iff h.links).mp hp with hw | hw
    · rw [hmet s t _ hw howner hc (.inl rfl)]
    · rw [hmet t s k hw hk (hc.trans hck) (.inr rfl)]

/-- Whatever is rebuilt has its states in step with its links, also where it cannot be solved. -/
theorem recompute_matched (h : ws.graph.WellFormed) (hn : n ∈ (ws.graph.component seeds).nodes) :
    (ws.recompute seeds).2.Matched n := by
  cases horder : ws.graph.topologicalOrder (ws.graph.component seeds).nodes with
  | ok order =>
    obtain ⟨ws₁, z, failures, es, hs, _⟩ := recompute_solved h horder
    exact hs.matched h hn
  | error cycle =>
    have hr := refreshed_component h seeds
    have hf := invalidate_finished ((ws.graph.component seeds).nodes.foldl freshInstance ws)
      (.dangling cycle) (Graph.component_sockets_nodup h seeds)
    have hshape := hr.sameShape.trans hf.sameShape
    rw [recompute_of_cycle h horder]
    intro s socket hs hc
    have howner := hshape.owner?_of_socket? hs
    have hmem := Graph.component_closed h hn (hshape.connected.mp hc)
    obtain ⟨_, _, hnew, _⟩ :=
      finished_socket h hr hf ((Graph.mem_component_sockets h).mpr ⟨_, howner, hmem⟩)
    rw [hs] at hnew
    cases hnew
    exact inStep_of_invalid ⟨_, rfl⟩

theorem peer?_attached (h : ws.graph.WellFormed) (hl : Graph.Linkable ws.graph o i p c) :
    (ws.attached o i).graph.peer? o = some i ∧ (ws.attached o i).graph.peer? i = some o := by
  have hw : (ws.attached o i).graph.Wired o i := Graph.wired_wire.mpr (.inl ⟨rfl, rfl⟩)
  have hlinks := (hl.wellFormed h).links
  exact ⟨(Graph.peer?_eq_some_iff hlinks).mpr (.inl hw),
    (Graph.peer?_eq_some_iff hlinks).mpr (.inr hw)⟩

/-- The ends of a new link get their states from it, and its solution makes their types equal.
Everywhere else in the new component, equal types stay equal. -/
theorem LinkMade.matched_joined (hm : LinkMade ws ws' o i p z) (h : ws.graph.WellFormed)
    (hl : Graph.Linkable ws.graph o i p c) (hz : MostGeneral z (ws.linkEquations o i))
    (hp : ws.Matched p) (hc : ws.Matched c) : ws'.Matched p := by
  have htype : ∀ t k, ws.graph.owner? t = some k → ws.Joined o i p k →
      ws'.typeOf? t = some ((ws.stored t).bind z) := fun t k ht hk => by
    rw [typeOf?_eq_stored ((hm.owner? t).trans ht), hm.stored_joined ⟨k, ht, hk⟩]
  intro s socket hs hJ
  have hJ := hm.sameShape.connected.mp hJ
  have howner : ws.graph.owner? s = some socket.node := hm.sameShape.owner?_of_socket? hs
  obtain ⟨old, hold, hnode⟩ := Option.map_eq_some_iff.mp howner
  have hnew := hm.socket s old ⟨_, howner, hJ⟩ hold
  by_cases hend : s = o ∨ s = i
  · rw [if_pos hend, hs] at hnew
    have hstate : socket.state = ws'.settledState s := by
      cases hnew
      exact (hm.sameShape.settledState s).symm
    refine inStep_of_settledState hs hstate fun t ht => ?_
    rw [hm.sameShape.peer?] at ht
    have hends : (ws.stored o).bind z = (ws.stored i).bind z := (solves_cons.mp hz.solves).1
    obtain ⟨ho, hi⟩ := peer?_attached h hl
    have hty := htype s _ howner hJ
    rw [typeOf?, hs, Option.map_some] at hty
    rcases hend with rfl | rfl
    · cases ho.symm.trans ht
      obtain ⟨k, hk, hkJ⟩ := socketOf_input hl
      rw [hty, htype _ k hk hkJ, hends]
    · cases hi.symm.trans ht
      obtain ⟨k, hk, hkJ⟩ := socketOf_output hl
      rw [hty, htype _ k hk hkJ, hends]
  · rw [if_neg hend, hs] at hnew
    cases hnew
    have hin : ws.InStep s old := (hl.connected_iff.mp hJ).elim (hp s old hold) (hc s old hold)
    have hpeer : ws'.graph.peer? s = ws.graph.peer? s :=
      (hm.sameShape.peer? s).trans (hl.peer?_of_ne h (not_or.mp hend).1 (not_or.mp hend).2)
    refine ⟨fun hstate => hpeer.trans (hin.unbound hstate), fun hstate => ?_,
      fun node hnode => hin.untyped node ((hm.sameShape.node? _).symm.trans hnode)⟩
    obtain ⟨t, ht, hty⟩ := hin.bound hstate
    obtain ⟨k, hk, hck⟩ := peer?_owner h (Graph.owner?_of_socket? hold) ht
    rw [typeOf?_eq_stored hk] at hty
    exact ⟨t, hpeer.trans ht, by
      rw [htype t k hk (hJ.trans (hl.connected_mono hck)), Option.some_inj.mp hty]⟩

theorem LinkMade.matched (hm : LinkMade ws ws' o i p z) (h : ws.Sound)
    (hl : Graph.Linkable ws.graph o i p c) (hz : MostGeneral z (ws.linkEquations o i))
    (hmatched : ∀ n node, ws.graph.node? n = some node → ws.Matched n)
    (hn : ws'.graph.node? n = some node) : ws'.Matched n := by
  by_cases hJ : ws.Joined o i p n
  · obtain ⟨pnode, hpnode, _⟩ := Graph.owner?_node h.graph hl.owner_output
    obtain ⟨cnode, hcnode, _⟩ := Graph.owner?_node h.graph hl.owner_input
    have hp := hm.matched_joined h.graph hl hz (hmatched p pnode hpnode) (hmatched c cnode hcnode)
    exact fun s socket hs hc => hp s socket hs ((hm.sameShape.connected.mpr hJ).trans hc)
  · exact hm.holds_of_not_joined Matched.of_same h hl hJ
      (hmatched n node ((hm.sameShape.node? n).symm.trans hn))

theorem Renames.matched {F : Node → Node} {old new : String} (hr : Renames F old new ws ws')
    (hmatched : ws.Matched n) : ws'.Matched n := by
  intro s socket' hs' hc
  obtain ⟨socket, hs, rfl⟩ := hr.exists_socket hs'
  rw [Graph.connected_congr hr.outline] at hc
  have hin := hmatched s socket hs hc
  have hpeer := Graph.peer?_eq_of_outline (s := s) hr.outline
  refine ⟨fun hstate => hpeer.trans (hin.unbound hstate), fun hstate => ?_,
    fun node' hnode' hne => ?_⟩
  · obtain ⟨t, hp, hty⟩ := hin.bound hstate
    refine ⟨t, hpeer.trans hp, ?_⟩
    obtain ⟨other, hother, hty⟩ := Option.map_eq_some_iff.mp hty
    rw [typeOf?, hr.socket, hother, ← hty]
    rfl
  · obtain ⟨node, hnode, rfl⟩ := hr.exists_node hnode'
    rw [hr.untyped] at hne
    exact hin.untyped node hnode hne

theorem resolveAll_matched (h : ws.Sound) (hn : ws.resolveAll.2.graph.node? n = some node) :
    ws.resolveAll.2.Matched n := by
  rw [(resolveAll_sameShape h).node?] at hn
  refine resolveAll_holds Matched.of_same h (fun ws₀ seeds hsound _ hnodes => ?_) hn
  exact recompute_matched hsound.graph ((hnodes n).mpr (.refl _ n))

theorem Step.matched (hstep : Step ws ws') (h : ws.Sound)
    (hmatched : ∀ n node, ws.graph.node? n = some node → ws.Matched n)
    (n : NodeId) (node : Node) (hn : ws'.graph.node? n = some node) : ws'.Matched n := by
  cases hstep with
  | rebuilt hb =>
    exact hb.holds Matched.of_same h.graph (fun n _ _ hp => recompute_matched hp.graph) hmatched n
      node hn
  | linked hl hz hm => exact hm.matched h hl hz hmatched hn
  | renamed hr =>
    obtain ⟨node, hnode, _⟩ := hr.exists_node hn
    exact hr.matched (hmatched n node hnode)
  | resolved => exact resolveAll_matched h hn

/-! ## What a run keeps -/

theorem Resolved.matched (h : ws.Resolved) (n : NodeId) (node : Node)
    (hn : ws.graph.node? n = some node) : ws.Matched n := by
  induction h generalizing n node with
  | empty => cases (empty_node? n).symm.trans hn
  | clear _ hok => cases (clear_node? hok n).symm.trans hn
  | resolveAll h => exact resolveAll_matched h.sound hn
  | run h hattach hrun ih =>
    exact Action.run_of_step (P := fun ws => ∀ n node, ws.graph.node? n = some node → ws.Matched n)
      (fun _ _ hsound hstep hP n node hn => hstep.matched hsound hP n node hn) h.reachable.sound
      hattach hrun ih n node hn

/-- In every workspace without an attached link that is still to be solved, whatever has failed in
it, a socket that is not bound has no link, a bound socket is linked and has the type of the socket
at the other end, and every socket of a node without a signature is invalid. -/
theorem states_match_wiring (h : ws.Resolved) (hs : ws.graph.socket? s = some socket) :
    (socket.state = .unbound → ws.graph.peer? s = none) ∧
      (socket.state = .bound → ∃ t, ws.graph.peer? s = some t ∧
        ws.typeOf? t = some socket.ty) ∧
      ∀ node, ws.graph.node? socket.node = some node → node.untyped ≠ none →
        ∃ e, socket.state = .invalid e := by
  obtain ⟨node, hn, _⟩ := Graph.owner?_node h.reachable.sound.graph (Graph.owner?_of_socket? hs)
  obtain ⟨hunbound, hbound, huntyped⟩ := h.matched socket.node node hn s socket hs (.refl _ _)
  exact ⟨hunbound, hbound, huntyped⟩

/-- A list of a number and a truth value, a list that is its own item, and a constructor whose type
is deleted. -/
def brokenPieces : List Action :=
  [.defineType "Box" [⟨"Box", []⟩], .addNode (.ctor "Box"), .addNode (.list 2),
    .addNode (.literal (.lit "Number" []) "1"), .addNode (.literal (.lit "Bool" []) "true"),
    .addNode (.list 1), .attach 4 2, .attach 5 3, .attach 6 7, .deleteType "Box"]

/-- The number is still linked to an input of its own type, next to the link that has failed. -/
theorem states_match_wiring_brokenPieces :
    ∃ ws socket socket', empty.runAll brokenPieces = some ws ∧ ws.resolveAll.2.Resolved ∧
      ws.resolveAll.2.invalidSockets.map Prod.fst = [0, 3, 5, 7, 6] ∧
      ws.resolveAll.2.graph.socket? 4 = some socket ∧ socket.state = .bound ∧
      (∃ t, ws.resolveAll.2.graph.peer? 4 = some t ∧
        ws.resolveAll.2.typeOf? t = some socket.ty) ∧
      ws.resolveAll.2.graph.socket? 1 = some socket' ∧ socket'.state = .unbound ∧
      ws.resolveAll.2.graph.peer? 1 = none := by
  have hrun : ((empty.runAll brokenPieces).any fun ws =>
      decide (ws.resolveAll.2.invalidSockets.map Prod.fst = [0, 3, 5, 7, 6]) &&
      ((ws.resolveAll.2.graph.socket? 4).any fun socket => socket.state = .bound) &&
      ((ws.resolveAll.2.graph.socket? 1).any fun socket => socket.state = .unbound)) = true := by
    simp only [brokenPieces, runAll, Action.run_defineType]
    cbv
  simp only [Option.any_eq_true, Bool.and_eq_true, decide_eq_true_eq] at hrun
  obtain ⟨ws, hsome, ⟨hinvalid, socket, hs, hbound⟩, socket', hs', hunbound⟩ := hrun
  have hresolved : ws.resolveAll.2.Resolved := .resolveAll (Reachable.empty.runAll hsome)
  exact ⟨ws, socket, socket', hsome, hresolved, hinvalid, hs, hbound,
    (states_match_wiring hresolved hs).2.1 hbound, hs', hunbound,
    (states_match_wiring hresolved hs').1 hunbound⟩

end Workspace
end BlockGraph
