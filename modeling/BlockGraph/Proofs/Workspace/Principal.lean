import BlockGraph.Proofs.Registry.Names
import BlockGraph.Proofs.Workspace.Connect
import Mathlib

/-!
# Principal types in every settled workspace

A workspace is built by edits, one after another.  Each edit keeps it sound, and each
but attaching keeps it settled; rebuilding everything settles it again.  So in a
workspace that was rebuilt after the last attached link, the types of a component
without invalid sockets are principal: they fit, and all other types that fit are
their instances.
-/

namespace BlockGraph
namespace Workspace

variable {ws ws' : Workspace} {n : NodeId}

/-- The edits of a workspace. -/
inductive Action where
  | addNode (block : Block)
  | removeNode (n : NodeId)
  | connect (output input : SocketId)
  | disconnect (output input : SocketId)
  | setArity (n : NodeId) (items : Nat)
  | renameBinder (n : NodeId) (branch field : Nat) (name : String)
  | defineType (candidate : String) (variants : List Variant)
  | defineFunction (name : String) (ty : Ty)
  | renameType (old candidate : String)
  | renameCtor (old candidate : String)
  | deleteType (name : String)
  | setVariantCount (name : String) (count : Nat)
  | setFieldCount (name : String) (variant count : Nat)
  | setFieldType (name : String) (variant field : Nat) (ty : Option Ty)
  | attach (output input : SocketId)
  | resolveAll

/-- The workspace after an edit, if the edit is not refused. -/
def after? {α : Type} (edit : Edit α) (ws : Workspace) : Option Workspace :=
  match edit ws with
  | .ok _ ws' => some ws'
  | .error _ _ => none

def Action.run (ws : Workspace) : Action → Option Workspace
  | addNode block => after? (Workspace.addNode block) ws
  | removeNode n => after? (Workspace.removeNode n) ws
  | connect output input => after? (Workspace.connect output input) ws
  | disconnect output input => after? (Workspace.disconnect output input) ws
  | setArity n items => after? (Workspace.setArity n items) ws
  | renameBinder n branch field name => after? (Workspace.renameBinder n branch field name) ws
  | defineType candidate variants => after? (Workspace.defineType candidate variants) ws
  | defineFunction name ty => after? (Workspace.defineFunction name ty) ws
  | renameType old candidate => after? (Workspace.renameType old candidate) ws
  | renameCtor old candidate => after? (Workspace.renameCtor old candidate) ws
  | deleteType name => after? (Workspace.deleteType name) ws
  | setVariantCount name count => after? (Workspace.setVariantCount name count) ws
  | setFieldCount name variant count => after? (Workspace.setFieldCount name variant count) ws
  | setFieldType name variant field ty =>
    after? (Workspace.setFieldType name variant field ty) ws
  | attach output input => after? (Workspace.attach output input) ws
  | resolveAll => some ws.resolveAll.2

/-- The workspace after edits, if none of them is refused. -/
def runAll (ws : Workspace) : List Action → Option Workspace
  | [] => some ws
  | action :: rest => (action.run ws).bind fun ws => ws.runAll rest

/-- A definition of a type with the edit of the registry in sight, so that runs can be evaluated. -/
theorem Action.run_defineType (ws : Workspace) (candidate : String) (variants : List Variant) :
    (defineType candidate variants).run ws =
      match onRegistry (Registry.defineType candidate variants) ws with
      | .error _ _ => none
      | .ok _ ws =>
        some { ws with supply := ws.supply.past (fieldLeaves variants) }.retryUntyped.2 := by
  show after? (Workspace.defineType candidate variants) ws = _
  rw [after?, Workspace.defineType]
  cases onRegistry (Registry.defineType candidate variants) ws <;> rfl

/-- Everything is rebuilt after the last attached link. -/
def ResolvedAtEnd (actions : List Action) : Prop :=
  ∀ before output input rest, actions = before ++ .attach output input :: rest →
    .resolveAll ∈ rest

variable {action : Action} {actions : List Action}

theorem resolvedAtEnd_append (actions : List Action) :
    ResolvedAtEnd (actions ++ [.resolveAll]) := by
  intro before output input rest h
  rcases List.eq_nil_or_concat rest with rfl | ⟨rest, last, rfl⟩
  · cases (List.append_inj' h rfl).2
  · rw [List.concat_eq_append] at h ⊢
    rw [← List.cons_append, ← List.append_assoc] at h
    cases (List.append_inj' h rfl).2
    exact List.mem_append_right rest (List.mem_singleton_self _)

/-- The workspaces that are reached by edits without an attached link that is still to be solved. -/
def Reached (ws : Workspace) : Prop :=
  ∃ actions, ResolvedAtEnd actions ∧ empty.runAll actions = some ws

/-! ## What a step keeps -/

theorem after?_eq_some {α : Type} {edit : Edit α} (h : after? edit ws = some ws') :
    ∃ a, edit ws = .ok a ws' := by
  rw [after?] at h
  split at h
  · next a ws₁ hedit =>
    cases h
    exact ⟨a, hedit⟩
  · cases h

/-! ### Edits of definitions -/

/-- An edit of definitions leads to a registry and a supply, and the signatures of the nodes on a
list are looked for again. -/
inductive Action.Redefines (ws : Workspace) : Action → Registry → Supply → List NodeId → Prop
  | defineType {candidate name : String} {variants : List Variant} {registry : Registry}
      (h : Registry.defineType candidate variants ws.registry = .ok name registry) :
      Redefines ws (.defineType candidate variants) registry
        (ws.supply.past (fieldLeaves variants)) (ws.nodesWhere fun node => node.untyped.isSome)
  | defineFunction {name : String} {ty : Ty} {registry : Registry}
      (h : Registry.defineFunction name ty ws.registry = .ok () registry) :
      Redefines ws (.defineFunction name ty) registry (ws.supply.past ty.leaves)
        (ws.nodesWhere fun node => node.untyped.isSome ||
          match node.block with
          | .function applied => applied = name
          | _ => false)
  | deleteType {name : String} {t : UserType} {registry : Registry}
      (h : Registry.deleteType name ws.registry = .ok t registry) :
      Redefines ws (.deleteType name) registry ws.supply (ws.concerned name)
  | setVariantCount {name : String} {count : Nat} {dropped : List String} {registry : Registry}
      (h : Registry.setVariantCount name count ws.registry = .ok dropped registry) :
      Redefines ws (.setVariantCount name count) registry ws.supply (ws.dependents name)
  | setFieldCount {name : String} {variant count : Nat} {registry : Registry}
      (h : Registry.setFieldCount name variant count ws.registry = .ok () registry) :
      Redefines ws (.setFieldCount name variant count) registry ws.supply (ws.dependents name)
  | setFieldType {name : String} {variant field : Nat} {ty : Option Ty} {registry : Registry}
      (h : Registry.setFieldType name variant field ty ws.registry = .ok () registry) :
      Redefines ws (.setFieldType name variant field ty) registry
        (ws.supply.past (ty.elim [] TyTerm.leaves)) (ws.dependents name)

def Action.redefines : Action → Bool
  | defineType .. | defineFunction .. | deleteType .. | setVariantCount .. | setFieldCount ..
  | setFieldType .. => true
  | _ => false

theorem Action.run_redefines (hredefines : action.redefines = true)
    (hrun : action.run ws = some ws') : ∃ registry supply nodes,
      action.Redefines ws registry supply nodes ∧
        ws' = ({ ws with registry, supply }.rebuild nodes).2 := by
  cases action with
  | defineType candidate variants =>
    obtain ⟨_, hok⟩ := after?_eq_some hrun
    obtain ⟨_, hdefine, rfl⟩ := defineType_ok hok
    exact ⟨_, _, _, .defineType hdefine, rfl⟩
  | defineFunction name ty =>
    obtain ⟨_, hok⟩ := after?_eq_some hrun
    obtain ⟨_, hdefine, rfl⟩ := defineFunction_ok hok
    exact ⟨_, _, _, .defineFunction hdefine, rfl⟩
  | deleteType name =>
    obtain ⟨_, hok⟩ := after?_eq_some hrun
    obtain ⟨_, _, hdelete, rfl, _⟩ := deleteType_ok hok
    exact ⟨_, _, _, .deleteType hdelete, rfl⟩
  | setVariantCount name count =>
    obtain ⟨_, hok⟩ := after?_eq_some hrun
    obtain ⟨_, _, hset, rfl⟩ := editType_ok hok
    exact ⟨_, _, _, .setVariantCount hset, rfl⟩
  | setFieldCount name variant count =>
    obtain ⟨_, hok⟩ := after?_eq_some hrun
    obtain ⟨_, _, hset, rfl⟩ := editType_ok hok
    exact ⟨_, _, _, .setFieldCount hset, rfl⟩
  | setFieldType name variant field ty =>
    obtain ⟨_, hok⟩ := after?_eq_some hrun
    obtain ⟨_, _, hset, rfl⟩ := editType_ok (setFieldType_ok hok)
    exact ⟨_, _, _, .setFieldType hset, rfl⟩
  | _ => cases hredefines

namespace Action.Redefines

variable {registry : Registry} {supply : Supply} {nodes : List NodeId} {node : Node}
  {type : String} {binders : List (List String)}

theorem supply_le (h : action.Redefines ws registry supply nodes) :
    ws.supply.next ≤ supply.next := by
  cases h with
  | defineType _ | defineFunction _ | setFieldType _ => exact ws.supply.le_past _
  | deleteType _ | setVariantCount _ | setFieldCount _ => exact Nat.le_refl _

/-- A distinction of cases is looked for again if the edit concerns its type. -/
theorem userType? (h : action.Redefines ws registry supply nodes) (hs : ws.Sound)
    (hmem : n ∉ nodes) (hn : ws.graph.node? n = some node)
    (hblock : node.block = .caseOf type binders) :
    registry.userType? type = ws.registry.userType? type := by
  have hne : ∀ {name}, n ∉ ws.dependents name → type ≠ name := by
    rintro name hmem rfl
    have hdepends := dependsOn_of_not_dependent hs.graph hn hmem
    simp [hblock, Block.dependsOn] at hdepends
  cases h with
  | defineType hdefine =>
    have htyped : node.untyped = none := by
      refine Option.not_isSome_iff_eq_none.mp fun hsome => hmem ?_
      exact (mem_nodesWhere (p := fun node => node.untyped.isSome) hs.graph).mpr ⟨node, hn, hsome⟩
    obtain ⟨t, ht⟩ := (hs.nodes n node hn).caseOf type binders hblock htyped
    rw [ht, Registry.defineType_userType? hdefine ht]
  | defineFunction hdefine =>
    obtain ⟨_, rfl⟩ := Registry.defineFunction_ok hdefine
    rfl
  | deleteType hdelete =>
    obtain ⟨hname, hreferrers⟩ := dependsOn_of_not_concerned hs.graph hn hmem
    rw [hblock] at hname hreferrers
    exact Registry.deleteType_userType?_of_dependsOn hdelete hname hreferrers
  | setVariantCount hset => exact Registry.setVariantCount_keeps _ _ _ _ hset type (hne hmem)
  | setFieldCount hset | setFieldType hset =>
    exact Registry.editVariant_keeps _ _ _ _ _ hset type (hne hmem)

theorem rebuiltFrom (h : action.Redefines ws registry supply nodes) (hs : ws.Sound) :
    RebuiltFrom ws ({ ws with registry, supply }.rebuild nodes).2 :=
  rebuild_rebuiltFrom hs h.supply_le fun _ _ _ _ hmem hn hblock => h.userType? hs hmem hn hblock

end Action.Redefines

/-! ### Every edit -/

/-- How an edit has ended, which is with a rebuild for most. -/
inductive Action.Outcome (ws : Workspace) : Workspace → Action → Prop
  | rebuilt {ws' : Workspace} {action : Action} (hb : RebuiltFrom ws ws') : Outcome ws ws' action
  | connected {ws' : Workspace} {o i : SocketId} (hok : Workspace.connect o i ws = .ok () ws') :
      Outcome ws ws' (.connect o i)
  | typeRenamed {ws' : Workspace} {old candidate new : String}
      (hok : Workspace.renameType old candidate ws = .ok new ws') :
      Outcome ws ws' (.renameType old candidate)
  | ctorRenamed {ws' : Workspace} {old candidate new : String}
      (hok : Workspace.renameCtor old candidate ws = .ok new ws') :
      Outcome ws ws' (.renameCtor old candidate)
  | attached {ws' : Workspace} {o i : SocketId} (hok : Workspace.attach o i ws = .ok () ws') :
      Outcome ws ws' (.attach o i)
  | resolved : Outcome ws ws.resolveAll.2 .resolveAll

theorem Action.run_outcome (h : ws.Sound) (hrun : action.run ws = some ws') :
    Outcome ws ws' action := by
  by_cases hredefines : action.redefines = true
  · obtain ⟨_, _, _, hd, rfl⟩ := action.run_redefines hredefines hrun
    exact .rebuilt (hd.rebuiltFrom h)
  cases action with
  | addNode block =>
    have hrun : after? (Workspace.addNode block) ws = some ws' := hrun
    obtain ⟨_, hok⟩ := after?_eq_some hrun
    exact .rebuilt (addNode_rebuiltFrom h hok)
  | removeNode n =>
    obtain ⟨_, hok⟩ := after?_eq_some hrun
    exact .rebuilt (removeNode_rebuiltFrom h hok)
  | connect output input =>
    obtain ⟨_, hok⟩ := after?_eq_some hrun
    exact .connected hok
  | disconnect output input =>
    obtain ⟨_, hok⟩ := after?_eq_some hrun
    exact .rebuilt (disconnect_rebuiltFrom h hok)
  | setArity n items =>
    obtain ⟨_, hok⟩ := after?_eq_some hrun
    exact .rebuilt (setArity_rebuiltFrom h hok)
  | renameBinder n branch field name =>
    obtain ⟨_, hok⟩ := after?_eq_some hrun
    exact .rebuilt (renameBinder_rebuiltFrom h hok)
  | renameType old candidate =>
    obtain ⟨_, hok⟩ := after?_eq_some hrun
    exact .typeRenamed hok
  | renameCtor old candidate =>
    obtain ⟨_, hok⟩ := after?_eq_some hrun
    exact .ctorRenamed hok
  | attach output input =>
    obtain ⟨_, hok⟩ := after?_eq_some hrun
    exact .attached hok
  | resolveAll =>
    cases hrun
    exact .resolved
  | _ => exact absurd rfl hredefines

/-- A step other than an attached link keeps a workspace sound and settled. -/
theorem Action.run_kept (h : ws.Sound) (hattach : ∀ output input, action ≠ .attach output input)
    (hrun : action.run ws = some ws') : ws'.Sound ∧ (ws.Settled → ws'.Settled) := by
  cases action.run_outcome h hrun with
  | rebuilt hb => exact ⟨hb.sound h, hb.settled h⟩
  | connected hok => exact connect_kept h hok
  | typeRenamed hok => exact renameType_kept h hok
  | ctorRenamed hok => exact renameCtor_kept h hok
  | attached _ => exact absurd rfl (hattach _ _)
  | resolved => exact ⟨resolveAll_sound h, fun _ => resolveAll_settled h⟩

theorem Action.run_sound (h : ws.Sound) (hrun : action.run ws = some ws') : ws'.Sound := by
  by_cases hattach : ∃ output input, action = .attach output input
  · obtain ⟨output, input, rfl⟩ := hattach
    obtain ⟨_, hok⟩ := after?_eq_some hrun
    obtain ⟨⟨p, c, hl⟩, rfl⟩ := attach_ok hok
    exact attached_sound h hl
  · exact (run_kept h (fun output input he => hattach ⟨output, input, he⟩) hrun).1

/-! ## What a run keeps -/

theorem empty_node? (n : NodeId) : empty.graph.node? n = none := rfl

theorem empty_socket? (s : SocketId) : empty.graph.socket? s = none := rfl

theorem sound_of_registry (r : Registry) (s : Supply) :
    Sound { graph := {}, registry := r, supply := s } := by
  refine ⟨Graph.empty_wellFormed, fun n node hn => ?_, fun s socket hs => ?_,
    fun s t socket _ _ hs => ?_⟩
  · cases (empty_node? n).symm.trans hn
  · cases (empty_socket? s).symm.trans hs
  · cases (empty_socket? s).symm.trans hs

theorem settled_of_registry (r : Registry) (s : Supply) :
    Settled { graph := {}, registry := r, supply := s } := by
  intro n node hn
  cases (empty_node? n).symm.trans hn

theorem empty_sound : empty.Sound := sound_of_registry _ _

theorem empty_settled : empty.Settled := settled_of_registry _ _

/-- What each step of a run keeps, the run keeps. -/
theorem runAll_kept {P : Workspace → Prop}
    (hstep : ∀ action ∈ actions, ∀ ws ws', P ws → action.run ws = some ws' → P ws') (h : P ws)
    (hrun : ws.runAll actions = some ws') : P ws' := by
  induction actions generalizing ws with
  | nil =>
    cases hrun
    exact h
  | cons action rest ih =>
    obtain ⟨ws₁, hfirst, hrest⟩ := Option.bind_eq_some_iff.mp hrun
    obtain ⟨haction, hothers⟩ := List.forall_mem_cons.mp hstep
    exact ih hothers (haction ws ws₁ h hfirst) hrest

theorem runAll_sound (h : ws.Sound) (hrun : ws.runAll actions = some ws') : ws'.Sound :=
  runAll_kept (fun action _ _ _ hws hstep => action.run_sound hws hstep) h hrun

/-- A run settles the workspace if it starts from a settled one or rebuilds everything on its way,
and rebuilds everything after the last attached link. -/
theorem runAll_settled (h : ws.Sound) (hstart : ws.Settled ∨ .resolveAll ∈ actions)
    (hresolved : ResolvedAtEnd actions) (hrun : ws.runAll actions = some ws') : ws'.Settled := by
  induction actions generalizing ws with
  | nil =>
    cases hrun
    exact hstart.resolve_right List.not_mem_nil
  | cons action rest ih =>
    obtain ⟨ws₁, hstep, hrest⟩ := Option.bind_eq_some_iff.mp hrun
    refine ih (action.run_sound h hstep) ?_ (fun before output input later hlater => ?_) hrest
    · by_cases hattach : ∃ output input, action = .attach output input
      · obtain ⟨output, input, rfl⟩ := hattach
        exact .inr (hresolved [] output input rest rfl)
      · have hkept := (action.run_kept h (fun o i he => hattach ⟨o, i, he⟩) hstep).2
        rcases hstart with hsettled | hmem
        · exact .inl (hkept hsettled)
        · rcases List.mem_cons.mp hmem with rfl | hmem
          · cases hstep
            exact .inl (resolveAll_settled h)
          · exact .inr hmem
    · exact hresolved (action :: before) output input later (by rw [hlater]; rfl)

theorem Reached.sound (h : ws.Reached) : ws.Sound := by
  obtain ⟨actions, _, hrun⟩ := h
  exact runAll_sound empty_sound hrun

theorem Reached.settled (h : ws.Reached) : ws.Settled := by
  obtain ⟨actions, hresolved, hrun⟩ := h
  exact runAll_settled empty_sound (.inl empty_settled) hresolved hrun

/-! ## Principal types -/

/-- No socket of the component of a socket is invalid. -/
def Valid (ws : Workspace) (seed : SocketId) : Prop :=
  ∀ s ∈ (ws.graph.component [seed]).sockets, ∀ socket, ws.graph.socket? s = some socket →
    ∀ e, socket.state ≠ .invalid e

theorem mem_invalidSockets (h : ws.graph.WellFormed) {s : SocketId} {e : TypeError} :
    (s, e) ∈ ws.invalidSockets ↔
      ∃ socket, ws.graph.socket? s = some socket ∧ socket.state = .invalid e := by
  rw [invalidSockets, List.mem_flatMap]
  constructor
  · rintro ⟨⟨n, node⟩, _, hs⟩
    obtain ⟨t, _, ht⟩ := List.mem_filterMap.mp hs
    split at ht
    · next e' hstate =>
      cases ht
      exact Option.map_eq_some_iff.mp hstate
    · cases ht
  · rintro ⟨socket, hs, hstate⟩
    obtain ⟨node, hnode, hmem⟩ := Graph.owner?_node h (Graph.owner?_of_socket? hs)
    refine ⟨(socket.node, node), (Slots.mem_entries_iff h.nodes).mpr hnode, ?_⟩
    refine List.mem_filterMap.mpr ⟨s, hmem, ?_⟩
    simp only [hs, Option.map_some, hstate]

theorem valid_of_invalidSockets (h : ws.graph.WellFormed) (hnone : ws.invalidSockets = [])
    (seed : SocketId) : ws.Valid seed := by
  intro s _ socket hs e hstate
  have hmem := (mem_invalidSockets h).mpr ⟨socket, hs, hstate⟩
  rw [hnone] at hmem
  exact List.not_mem_nil hmem

theorem Valid.ne_invalid {seed s : SocketId} {socket : Socket} (hvalid : ws.Valid seed)
    (h : ws.graph.WellFormed) (hseed : ws.graph.owner? seed = some n)
    (hs : ws.graph.socket? s = some socket) (hc : ws.graph.Connected n socket.node)
    (e : TypeError) : socket.state ≠ .invalid e := by
  have hmem := (Graph.mem_component_singleton h hseed).mpr hc
  have hsocket := (Graph.mem_component_sockets h).mpr ⟨_, Graph.owner?_of_socket? hs, hmem⟩
  exact hvalid s hsocket socket hs e

theorem Valid.coherent {seed : SocketId} (hvalid : ws.Valid seed) (h : ws.graph.WellFormed)
    (hsettled : ws.Settled) (hseed : ws.graph.owner? seed = some n) : ws.Coherent n := by
  obtain ⟨node, hnode, _⟩ := Graph.owner?_node h hseed
  refine (hsettled n node hnode).resolve_right ?_
  rintro ⟨s, socket, e, hs, hc, hstate, _⟩
  exact hvalid.ne_invalid h hseed hs hc e hstate

/-- In a workspace without links that are still to be solved, the types of a component without
invalid sockets fit, and the types that fit it are their instances. -/
theorem stored_principal (h : ws.Reached) {seed : SocketId} (hvalid : ws.Valid seed) :
    ws.Typing (· ∈ (ws.graph.component [seed]).nodes) ws.stored ∧
      ∀ A, ws.Typing (· ∈ (ws.graph.component [seed]).nodes) A ↔
        ∃ θ : TyVar → Ty, ∀ s ∈ (ws.graph.component [seed]).sockets,
          A s = (ws.stored s).bind θ := by
  have hgraph := h.sound.graph
  suffices hgen : Generates ws.stored (· ∈ (ws.graph.component [seed]).sockets)
      (ws.Typing (· ∈ (ws.graph.component [seed]).nodes)) from ⟨hgen.self, hgen⟩
  have hsockets : (· ∈ (ws.graph.component [seed]).sockets) =
      ws.SocketOf (· ∈ (ws.graph.component [seed]).nodes) :=
    funext fun s => propext (Graph.mem_component_sockets hgraph)
  rw [hsockets]
  cases hseed : ws.graph.owner? seed with
  | some n =>
    have hnodes : (· ∈ (ws.graph.component [seed]).nodes) = ws.graph.Connected n :=
      funext fun m => propext (Graph.mem_component_singleton hgraph hseed)
    rw [hnodes]
    exact (hvalid.coherent hgraph h.settled hseed).principal
  | none =>
    -- A number that no socket has belongs to no component.
    have hnone : ∀ m, m ∉ (ws.graph.component [seed]).nodes := by
      intro m hm
      obtain ⟨s, hs, k, hk, _⟩ := (Graph.mem_component_nodes hgraph).mp hm
      rw [List.mem_singleton.mp hs, hseed] at hk
      cases hk
    refine fun A => ⟨fun _ => ⟨.var, fun s ⟨m, _, hm⟩ => absurd hm (hnone m)⟩, fun _ => ?_⟩
    exact ⟨fun m _ hm => absurd hm (hnone m), fun _ _ m _ _ hm => absurd hm (hnone m),
      fun m _ hm => absurd hm (hnone m)⟩

/-- A link from a list to a function is attached and solved afterwards. -/
def sameOfList : List Action :=
  [.defineFunction "same" (.fn (.var 0) (.var 0)), .addNode (.function "same"), .addNode (.list 2),
    .attach 2 1, .resolveAll]

/-- The list decides what the function takes and gives, and its items have any type. -/
theorem stored_principal_sameOfList :
    ∃ ws : Workspace, empty.runAll sameOfList = some ws ∧ ws.Valid 0 ∧
      ws.stored 0 = .lit "List" [ws.stored 3] ∧ ws.stored 3 = .var 13 ∧
      ws.Typing (· ∈ (ws.graph.component [0]).nodes) ws.stored ∧
      ∀ A, ws.Typing (· ∈ (ws.graph.component [0]).nodes) A ↔
        ∃ θ : TyVar → Ty, ∀ s ∈ (ws.graph.component [0]).sockets, A s = (ws.stored s).bind θ := by
  have hrun : (empty.runAll sameOfList).isSome := by cbv
  have hsome := (Option.some_get hrun).symm
  have hreached : ((empty.runAll sameOfList).get hrun).Reached :=
    ⟨sameOfList, resolvedAtEnd_append (sameOfList.take 4), hsome⟩
  have hvalid := valid_of_invalidSockets hreached.sound.graph (by cbv) 0
  exact ⟨_, hsome, hvalid, by cbv, by cbv, stored_principal hreached hvalid⟩

end Workspace
end BlockGraph
