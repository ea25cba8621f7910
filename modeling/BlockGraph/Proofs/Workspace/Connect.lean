import BlockGraph.Proofs.Workspace.Linking
import BlockGraph.Proofs.Workspace.Preservation

/-!
# Connecting and attaching

A link joins two components.  The types that fit the new component are the common
instances of the stored types that solve the equations of the link
(`typing_attached_iff`): an old pattern variable stays bound where it was, and those
that come into scope are among the equations.  So the most general solution of the
equations makes the stored types principal again.

Attaching makes the same link and leaves types and states alone.
-/

namespace BlockGraph
namespace Workspace

variable {ws ws' : Workspace} {o i : SocketId} {p c m n : NodeId} {node : Node} {A : Assignment}

def attached (ws : Workspace) (o i : SocketId) : Workspace :=
  { ws with graph := ws.graph.wire o i }

/-- The nodes that hang together with the node of an output once it feeds an input. -/
abbrev Joined (ws : Workspace) (o i : SocketId) (p n : NodeId) : Prop :=
  (ws.attached o i).graph.Connected p n

theorem socketOf_output (hl : Graph.Linkable ws.graph o i p c) : ws.SocketOf (ws.Joined o i p) o :=
  ⟨p, hl.owner_output, .refl _ _⟩

theorem socketOf_input (hl : Graph.Linkable ws.graph o i p c) : ws.SocketOf (ws.Joined o i p) i :=
  ⟨c, hl.owner_input, hl.connected_iff.mpr (.inr (.refl _ _))⟩

section Attached

variable (h : ws.graph.WellFormed) (hl : Graph.Linkable ws.graph o i p c)
include h hl

theorem mem_component_link : n ∈ (ws.graph.component [o, i]).nodes ↔ ws.Joined o i p n := by
  rw [Joined, attached, hl.connected_iff, Graph.mem_component_nodes h]
  constructor
  · rintro ⟨s, hs, m, hm, hn⟩
    rcases List.mem_cons.mp hs with rfl | hs
    · rw [hl.owner_output] at hm
      cases hm
      exact .inl hn
    · rw [List.mem_singleton.mp hs, hl.owner_input] at hm
      cases hm
      exact .inr hn
  · rintro (hn | hn)
    · exact ⟨o, List.mem_cons_self, p, hl.owner_output, hn⟩
    · exact ⟨i, List.mem_cons_of_mem o (List.mem_singleton_self i), c, hl.owner_input, hn⟩

theorem bindingSite?_attached (n : NodeId) :
    bindingSite? (ws.attached o i).graph none n = bindingSite? ws.graph (some ⟨o, i⟩) n :=
  bindingSite?_wire h (hl.wellFormed h) n

/-- The link changes what is called for at its ends alone. -/
theorem settledState_attached {s : SocketId} (hs : ¬ (s = o ∨ s = i)) :
    (ws.attached o i).settledState s = ws.settledState s := by
  have hpeer := hl.peer?_of_ne h (fun he => hs (.inl he)) fun he => hs (.inr he)
  rw [settledState, settledState,
    show (ws.attached o i).graph.peer? s = ws.graph.peer? s from hpeer]
  rfl

/-- Types that fit the new component fit each of the two before. -/
theorem typing_of_attached {K : NodeId → Prop} (hK : ∀ m, K m → ws.Joined o i p m)
    (hA : (ws.attached o i).Typing (ws.Joined o i p) A) : ws.Typing K A := by
  refine ⟨fun m node hm hnode => hA.node m node (hK m hm) hnode,
    fun a b m hw ha hm => hA.wire a b m (Graph.wired_wire.mpr (.inr hw)) ha (hK m hm),
    fun m node hm hnode site t hsite hfield => hA.scope m node (hK m hm) hnode site t ?_ hfield⟩
  rw [bindingSite?_attached h hl]
  exact bindingSite?_pending hl.output_free hsite

/-- In a typing of the new component, a pattern variable has an instance of the copy that is listed
for it. -/
theorem instance_of_linkScope (hA : (ws.attached o i).Typing (ws.Joined o i p) A)
    {e : SocketId × Ty} (he : e ∈ (ws.linkScope o i).1) :
    ws.SocketOf (ws.Joined o i p) e.1 ∧ ∃ θ : TyVar → Ty, A e.1 = e.2.bind θ := by
  obtain ⟨m, hm, node, site, hentry⟩ := (linkScope_listed ws o i).entry e he
  have hm := (mem_component_link h hl).mp hm
  have hsite := hentry.bound
  rw [← bindingSite?_attached h hl] at hsite
  refine ⟨⟨m, hentry.owner? h, hm⟩, (hentry.copy.instance_iff _).mp ?_⟩
  rw [hentry.output, fieldScheme]
  cases hfield : ws.registry.fieldType? site.type site.branch site.field with
  | none => exact ⟨fun _ => A node.output, rfl⟩
  | some t => exact hA.scope m node hm hentry.live site t hsite hfield

end Attached

section Coherent

variable (h : ws.Sound) (hl : Graph.Linkable ws.graph o i p c) (hp : ws.Coherent p)
  (hc : ws.Coherent c)
include h hl hp hc

/-- Types that fit the new component come from the stored types by one substitution. -/
theorem exists_instance_of_stored (hA : (ws.attached o i).Typing (ws.Joined o i p) A) :
    ∃ θ : TyVar → Ty, ∀ s, ws.SocketOf (ws.Joined o i p) s → A s = (ws.stored s).bind θ := by
  obtain ⟨θp, hθp⟩ := hp.principal.instance_of_mem
    (typing_of_attached h.graph hl (fun m hm => hl.connected_iff.mpr (.inl hm)) hA)
  obtain ⟨θc, hθc⟩ := hc.principal.instance_of_mem
    (typing_of_attached h.graph hl (fun m hm => hl.connected_iff.mpr (.inr hm)) hA)
  -- The sockets are divided into those of the output's component and the others.
  refine exists_common_instance (ws.SocketOf (ws.graph.Connected p)) ?_ fun side => ?_
  · rintro s t v ⟨a, hs, _⟩ ⟨b, ht, _⟩ hvs hvt
    have hab := h.stored_apart hs ht hvs hvt
    simp only [SocketOf, hs, ht, Option.some.injEq, exists_eq_left', eq_iff_iff]
    exact ⟨fun hpa => hpa.trans hab, fun hpb => hpb.trans hab.symm⟩
  · by_cases hside : side
    · exact ⟨θp, fun s _ heq => hθp s (heq ▸ hside)⟩
    · refine ⟨θc, ?_⟩
      rintro s ⟨m, hs, hm⟩ heq
      refine hθc s ⟨m, hs, (hl.connected_iff.mp hm).resolve_left fun hpm => hside ?_⟩
      rw [← heq]
      exact ⟨m, hs, hpm⟩

omit hp hc in
/-- The outputs of pattern variables come from the copies that are listed for them by one
substitution. -/
theorem exists_instance_of_linkScope (hA : (ws.attached o i).Typing (ws.Joined o i p) A) :
    ∃ θ : TyVar → Ty, ∀ e ∈ (ws.linkScope o i).1, A e.1 = e.2.bind θ := by
  have hapart : ∀ e e' v, e ∈ (ws.linkScope o i).1 → e' ∈ (ws.linkScope o i).1 →
      v ∈ e.2.leaves → v ∈ e'.2.leaves → e = e' := fun e e' v he he' hv hv' =>
    (linkScope_listed ws o i).apart e he e' he' v hv hv'
  refine exists_common_instance id hapart fun e => ?_
  by_cases he : e ∈ (ws.linkScope o i).1
  · obtain ⟨_, θ, hθ⟩ := instance_of_linkScope h.graph hl hA he
    refine ⟨θ, fun e' _ heq => ?_⟩
    rw [show e' = e from heq]
    exact hθ
  · refine ⟨.var, fun e' he' heq => absurd ?_ he⟩
    rw [← show e' = e from heq]
    exact he'

/-- Both come by the same substitution, since the copies have fresh variables. -/
theorem exists_instance_of_attached (hA : (ws.attached o i).Typing (ws.Joined o i p) A) :
    ∃ θ : TyVar → Ty, (∀ s, ws.SocketOf (ws.Joined o i p) s → A s = (ws.stored s).bind θ) ∧
      ∀ e ∈ (ws.linkScope o i).1, A e.1 = e.2.bind θ := by
  obtain ⟨θ, hθ⟩ := exists_instance_of_stored h hl hp hc hA
  obtain ⟨θ', hθ'⟩ := exists_instance_of_linkScope h hl hA
  refine exists_common_instance_of_disjoint ?_ hθ hθ'
  rintro s e v ⟨m, hs, _⟩ he hvs hve
  exact absurd (h.stored_below hs hvs)
    (Nat.not_lt.mpr ((linkScope_listed ws o i).within e he v hve).1)

/-- What comes from the stored types by a solution of the link's equations fits. -/
theorem typing_attached_of_solves {θ : TyVar → Ty} (hθ : Solves θ (ws.linkEquations o i))
    (hA : ∀ s, ws.SocketOf (ws.Joined o i p) s → A s = (ws.stored s).bind θ) :
    (ws.attached o i).Typing (ws.Joined o i p) A := by
  have hlisted := linkScope_listed ws o i
  obtain ⟨hends, hscope⟩ := solves_cons.mp hθ
  have hjoined : ∀ m, ws.Joined o i p m ↔ ws.graph.Connected p m ∨ ws.graph.Connected c m :=
    fun m => hl.connected_iff
  have hp' : ws.Typing (ws.graph.Connected p) A := (hp.principal A).mpr
    ⟨θ, fun s ⟨m, hs, hm⟩ => hA s ⟨m, hs, (hjoined m).mpr (.inl hm)⟩⟩
  have hc' : ws.Typing (ws.graph.Connected c) A := (hc.principal A).mpr
    ⟨θ, fun s ⟨m, hs, hm⟩ => hA s ⟨m, hs, (hjoined m).mpr (.inr hm)⟩⟩
  refine ⟨fun m node hm hnode => ?_, fun a b m hw ha hm => ?_,
    fun m node hm hnode site t hsite hfield => ?_⟩
  · exact ((hjoined m).mp hm).elim (fun hm => hp'.node m node hm hnode)
      fun hm => hc'.node m node hm hnode
  · rcases Graph.wired_wire.mp hw with ⟨rfl, rfl⟩ | hw
    · rw [hA a (socketOf_output hl), hA b (socketOf_input hl), hends]
    · exact ((hjoined m).mp hm).elim (hp'.wire a b m hw ha) (hc'.wire a b m hw ha)
  · -- The entry for the node is a copy of the type of the field at this very site.
    rw [bindingSite?_attached h.graph hl] at hsite
    obtain ⟨u, hu⟩ := hlisted.complete m ((mem_component_link h.graph hl).mpr hm) node site hnode
      hsite
    obtain ⟨k, _, knode, ksite, hentry⟩ := hlisted.entry _ hu
    have hcopy := hentry.copy
    cases (hentry.owner? h.graph).symm.trans (Graph.owner?_output h.graph hnode)
    cases hentry.bound.symm.trans hsite
    rw [fieldScheme, show ws.registry.fieldType? site.type site.branch site.field = some t
      from hfield, Option.getD_some] at hcopy
    refine (hcopy.instance_iff _).mpr ⟨θ, ?_⟩
    rw [hA node.output ⟨m, Graph.owner?_output h.graph hnode, hm⟩]
    exact hscope _ (List.mem_map.mpr ⟨_, hu, rfl⟩)

/-- The types that fit the new component. -/
theorem typing_attached_iff : (ws.attached o i).Typing (ws.Joined o i p) A ↔
    ∃ θ : TyVar → Ty, Solves θ (ws.linkEquations o i) ∧
      ∀ s, ws.SocketOf (ws.Joined o i p) s → A s = (ws.stored s).bind θ := by
  constructor
  · intro hA
    obtain ⟨θ, hθ, hscope⟩ := exists_instance_of_attached h hl hp hc hA
    refine ⟨θ, solves_cons.mpr ⟨?_, fun e he => ?_⟩, hθ⟩
    · rw [← hθ o (socketOf_output hl), ← hθ i (socketOf_input hl)]
      exact hA.wire o i p (Graph.wired_wire.mpr (.inl ⟨rfl, rfl⟩)) hl.owner_output (.refl _ _)
    · obtain ⟨e, hmem, rfl⟩ := List.mem_map.mp he
      rw [← hscope e hmem, hθ e.1 (instance_of_linkScope h.graph hl hA hmem).1]
  · rintro ⟨θ, hθ, hA⟩
    exact typing_attached_of_solves h hl hp hc hθ hA

theorem generates_attached {z : TyVar → Ty} (hz : MostGeneral z (ws.linkEquations o i)) :
    Generates (fun s => (ws.stored s).bind z) (ws.SocketOf (ws.Joined o i p))
      ((ws.attached o i).Typing (ws.Joined o i p)) := by
  intro A
  rw [typing_attached_iff h hl hp hc]
  constructor
  · rintro ⟨θ, hθ, hA⟩
    exact ⟨θ, fun s hs => by rw [hA s hs, (hz.absorbs hθ).bind]⟩
  · rintro ⟨θ, hA⟩
    refine ⟨fun v => (z v).bind θ, (hz.absorbs_iff _).mp hz.idempotent.comp, fun s hs => ?_⟩
    rw [hA s hs, TyTerm.bind_bind]

end Coherent

/-! ## Connecting -/

/-- A link has been made, with its solution carried out in the new component. -/
structure LinkMade (ws ws' : Workspace) (o i : SocketId) (p : NodeId) (z : TyVar → Ty) :
    Prop where
  sameShape : SameShape (ws.attached o i) ws'
  supply : ws'.supply = (ws.linkScope o i).2
  other : ∀ s, ¬ ws.SocketOf (ws.Joined o i p) s → ws'.graph.socket? s = ws.graph.socket? s
  socket : ∀ s socket, ws.SocketOf (ws.Joined o i p) s → ws.graph.socket? s = some socket →
    ws'.graph.socket? s = some
      { socket with
        ty := socket.ty.bind z
        state := if s = o ∨ s = i then (ws.attached o i).settledState s else socket.state }

/-- Carrying a solution out in a component and setting the states of the ends makes the link. -/
theorem linkMade (h : ws.graph.WellFormed) (hl : Graph.Linkable ws.graph o i p c) (σ : Subst) :
    LinkMade ws
      ({ ws with
        graph := (applyTo ws.graph σ (ws.graph.component [o, i]).sockets).wire o i
        supply := (ws.linkScope o i).2 }.settleStates [o, i]) o i p σ.image := by
  let sockets := (ws.graph.component [o, i]).sockets
  have hmem : ∀ s, s ∈ sockets ↔ ws.SocketOf (ws.Joined o i p) s := fun s => by
    rw [Graph.mem_component_sockets h]
    exact exists_congr fun m => and_congr_right fun _ => mem_component_link h hl
  -- First the types,
  obtain ⟨hother, hown⟩ := Graph.socket?_foldl_modifySocket id
    (fun _ socket => { socket with ty := σ.apply socket.ty }) ws.graph sockets
  obtain ⟨houtline, hnodes⟩ := Graph.outline_foldl_modifySocket id
    (fun _ socket => { socket with ty := σ.apply socket.ty }) (fun _ _ => rfl) ws.graph sockets
  rw [List.map_id] at hother hown
  let ws₂ : Workspace :=
    { ws with graph := (applyTo ws.graph σ sockets).wire o i, supply := (ws.linkScope o i).2 }
  have hshape : SameShape (ws.attached o i) ws₂ :=
    ⟨hnodes, congrArg (fun g : Graph => g.wire o i) houtline, rfl⟩
  -- and then the states.
  obtain ⟨hother', hown'⟩ := Graph.socket?_foldl_modifySocket id
    (fun s socket => { socket with state := ws₂.settledState s }) ws₂.graph [o, i]
  obtain ⟨houtline', hnodes'⟩ := Graph.outline_foldl_modifySocket id
    (fun s socket => { socket with state := ws₂.settledState s }) (fun _ _ => rfl) ws₂.graph [o, i]
  rw [List.map_id] at hother' hown'
  have hdistinct : [o, i].Nodup := by simp [hl.ne]
  refine ⟨hshape.trans ⟨hnodes', houtline', rfl⟩, rfl, fun s hs => ?_,
    fun s socket hs hsocket => ?_⟩
  · have hends : s ∉ [o, i] := by
      intro hend
      rcases List.mem_cons.mp hend with rfl | hend
      · exact hs (socketOf_output hl)
      · rw [List.mem_singleton.mp hend] at hs
        exact hs (socketOf_input hl)
    exact (hother' s hends).trans (hother s fun hmem' => hs ((hmem s).mp hmem'))
  · have htype : ws₂.graph.socket? s = some { socket with ty := σ.apply socket.ty } := by
      have hnew := hown (Graph.component_sockets_nodup h [o, i]) s ((hmem s).mpr hs)
      rw [id_eq, hsocket, Option.map_some] at hnew
      exact hnew
    by_cases hend : s ∈ [o, i]
    · have hnew := hown' hdistinct s hend
      rw [id_eq, htype, Option.map_some, hshape.settledState] at hnew
      rw [if_pos (by simpa using hend)]
      exact hnew
    · rw [if_neg (by simpa using hend)]
      exact (hother' s hend).trans htype

theorem connect_ok (h : ws.graph.WellFormed) (hok : connect o i ws = .ok () ws') :
    ∃ p c z, Graph.Linkable ws.graph o i p c ∧ ¬ Relation.ReflTransGen ws.graph.Feeds c p ∧
      MostGeneral z (ws.linkEquations o i) ∧ LinkMade ws ws' o i p z := by
  simp only [connect] at hok
  split at hok
  · cases hok
  next hcheck =>
  obtain ⟨p, c, hl, hcycle⟩ := checkLink_acyclic h hcheck
  split at hok
  · cases hok
  next σ component supply hsolve =>
  obtain ⟨rfl, rfl, hz⟩ := solveLink_ok h hl hsolve
  cases hok
  exact ⟨p, c, σ.image, hl, hcycle, hz, linkMade h hl σ⟩

/-- A variable stands in the new component before the link is solved, or is a fresh one of the
link. -/
def LinkVar (ws : Workspace) (o i : SocketId) (p : NodeId) (v : TyVar) : Prop :=
  (∃ s, ws.SocketOf (ws.Joined o i p) s ∧ v ∈ (ws.stored s).leaves) ∨
    (ws.supply.next ≤ v ∧ v < (ws.linkScope o i).2.next)

theorem leaves_linkEquations (h : ws.graph.WellFormed) (hl : Graph.Linkable ws.graph o i p c)
    {e : Equation} (he : e ∈ ws.linkEquations o i) {v : TyVar}
    (hv : v ∈ e.1.leaves ++ e.2.leaves) : ws.LinkVar o i p v := by
  have hlisted := linkScope_listed ws o i
  rcases List.mem_cons.mp he with rfl | he
  · rcases List.mem_append.mp hv with hv | hv
    · exact .inl ⟨o, socketOf_output hl, hv⟩
    · exact .inl ⟨i, socketOf_input hl, hv⟩
  · obtain ⟨x, hx, rfl⟩ := List.mem_map.mp he
    obtain ⟨m, hm, node, site, hentry⟩ := hlisted.entry x hx
    rcases List.mem_append.mp hv with hv | hv
    · exact .inl ⟨x.1, ⟨m, hentry.owner? h, (mem_component_link h hl).mp hm⟩, hv⟩
    · exact .inr (hlisted.within x hx v hv)

namespace LinkMade

variable {s : SocketId}

variable {z : TyVar → Ty} (hm : LinkMade ws ws' o i p z)
include hm

theorem owner? (s : SocketId) : ws'.graph.owner? s = ws.graph.owner? s :=
  hm.sameShape.owner? s

theorem stored_joined (hs : ws.SocketOf (ws.Joined o i p) s) :
    ws'.stored s = (ws.stored s).bind z := by
  obtain ⟨m, hown, hJ⟩ := hs
  obtain ⟨socket, hsocket, _⟩ := Option.map_eq_some_iff.mp hown
  rw [stored_eq (hm.socket s socket ⟨m, hown, hJ⟩ hsocket), stored_eq hsocket]

theorem stored_other (hs : ¬ ws.SocketOf (ws.Joined o i p) s) : ws'.stored s = ws.stored s := by
  rw [stored, typeOf?, hm.other s hs, stored, typeOf?]

theorem linkVar_of_leaves (h : ws.graph.WellFormed) (hl : Graph.Linkable ws.graph o i p c)
    (hz : MostGeneral z (ws.linkEquations o i)) {v : TyVar} (hs : ws.SocketOf (ws.Joined o i p) s)
    (hv : v ∈ (ws'.stored s).leaves) : ws.LinkVar o i p v := by
  rw [hm.stored_joined hs] at hv
  exact hz.leaves_of_divided (fun e he => .inl fun v hv => leaves_linkEquations h hl he hv)
    (fun v hv => .inl ⟨s, hs, hv⟩) hv

/-- A variable of the new component stands nowhere else. -/
theorem joined_of_shared (h : ws.Sound) (hl : Graph.Linkable ws.graph o i p c)
    (hz : MostGeneral z (ws.linkEquations o i)) {t : SocketId} {v : TyVar}
    (hs : ws.SocketOf (ws.Joined o i p) s) (ht : ws.graph.owner? t = some m)
    (hvs : v ∈ (ws'.stored s).leaves) (hvt : v ∈ (ws'.stored t).leaves) : ws.Joined o i p m := by
  refine Classical.byContradiction fun hmJ => ?_
  have hother : ¬ ws.SocketOf (ws.Joined o i p) t := by
    rintro ⟨k, hk, hkJ⟩
    rw [ht] at hk
    cases hk
    exact hmJ hkJ
  rw [hm.stored_other hother] at hvt
  rcases hm.linkVar_of_leaves h.graph hl hz hs hvs with ⟨u, ⟨k, hu, hk⟩, hvu⟩ | ⟨hge, _⟩
  · exact hmJ (hk.trans (hl.connected_mono (h.stored_apart hu ht hvu hvt)))
  · exact absurd (h.stored_below ht hvt) (Nat.not_lt.mpr hge)

theorem sound (h : ws.Sound) (hl : Graph.Linkable ws.graph o i p c)
    (hz : MostGeneral z (ws.linkEquations o i)) : ws'.Sound := by
  have hsupply := (linkScope_listed ws o i).supply
  refine .of_stored (hm.sameShape.wellFormed.mpr (hl.wellFormed h.graph)) (fun n node hn => ?_)
    (fun s m v hs hv => ?_) fun s t m k v hs ht hvs hvt => ?_
  · rw [hm.sameShape.registry]
    exact h.nodes n node (hm.sameShape.node? n ▸ hn)
  · rw [hm.owner?] at hs
    rw [hm.supply]
    by_cases hJ : ws.SocketOf (ws.Joined o i p) s
    · rcases hm.linkVar_of_leaves h.graph hl hz hJ hv with ⟨u, ⟨k, hu, _⟩, hvu⟩ | ⟨_, hlt⟩
      · exact Nat.lt_of_lt_of_le (h.stored_below hu hvu) hsupply
      · exact hlt
    · rw [hm.stored_other hJ] at hv
      exact Nat.lt_of_lt_of_le (h.stored_below hs hv) hsupply
  · rw [hm.owner?] at hs ht
    rw [hm.sameShape.connected]
    by_cases hsJ : ws.SocketOf (ws.Joined o i p) s
    · obtain ⟨m', hm', hJ⟩ := hsJ
      rw [hs] at hm'
      cases hm'
      exact hJ.symm.trans (hm.joined_of_shared h hl hz ⟨m, hs, hJ⟩ ht hvs hvt)
    · by_cases htJ : ws.SocketOf (ws.Joined o i p) t
      · exact absurd ⟨m, hs, hm.joined_of_shared h hl hz htJ hs hvt hvs⟩ hsJ
      · rw [hm.stored_other hsJ] at hvs
        rw [hm.stored_other htJ] at hvt
        exact hl.connected_mono (h.stored_apart hs ht hvs hvt)

theorem sameAt (h : ws.Sound) (hl : Graph.Linkable ws.graph o i p c) (hn : ¬ ws.Joined o i p n) :
    SameAt ws ws' n := by
  have hgraph := hl.sameAt h.graph hn
  refine ⟨⟨hm.sameShape.node? n, fun s hs => hm.other s ?_, fun s hs => ?_⟩,
    fun _ _ _ _ _ => by rw [hm.sameShape.registry]; rfl⟩
  · rintro ⟨m, hsm, hJ⟩
    rw [hs] at hsm
    cases hsm
    exact hn hJ
  · exact (hm.sameShape.peer? s).trans (hgraph.peer s hs)

/-- A local property is kept outside the new component. -/
theorem holds_of_not_joined {P : Workspace → NodeId → Prop} (hP : Local P) (h : ws.Sound)
    (hl : Graph.Linkable ws.graph o i p c) (hn : ¬ ws.Joined o i p n) (hold : P ws n) :
    P ws' n := by
  refine hP h.graph (hm.sameShape.wellFormed.mpr (hl.wellFormed h.graph)) (fun k hk => ?_) hold
  exact hm.sameAt h hl fun hkJ => hn (hkJ.trans (hl.connected_mono hk.symm))

/-- A fault at either end is a fault of the new component. -/
theorem faulty (h : ws.graph.WellFormed) (hl : Graph.Linkable ws.graph o i p c)
    (hn : ws.Joined o i p n) (hf : ws.Faulty n) : ws'.Faulty p := by
  obtain ⟨s, socket, e, hs, hc, hstate, hfault⟩ := hf
  have hJ : ws.Joined o i p socket.node := hn.trans (hl.connected_mono hc)
  have hown := Graph.owner?_of_socket? hs
  have hnew := hm.socket s socket ⟨_, hown, hJ⟩ hs
  have huntyped : ws'.untyped? s = ws.untyped? s := by
    have hnode : ws'.graph.node? = ws.graph.node? := funext hm.sameShape.node?
    rw [untyped?, untyped?, hm.owner?, hnode]
  by_cases hend : s = o ∨ s = i
  · -- The ends were free, so it is a node without a signature that is at fault.
    have hfree : ws.graph.peer? s = none := by
      rcases hend with rfl | rfl
      · exact hl.output_free
      · exact hl.input_free
    obtain ⟨e', he'⟩ : ∃ e', ws.untyped? s = some e' := by
      rcases hfault with ⟨t, ht⟩ | hsome
      · rw [hfree] at ht
        cases ht
      · exact Option.isSome_iff_exists.mp hsome
    have hsettled : (ws.attached o i).settledState s = .invalid e' := by
      rw [settledState, show (ws.attached o i).untyped? s = some e' from he']
    rw [if_pos hend, hsettled] at hnew
    refine ⟨s, _, e', hnew, hm.sameShape.connected.mpr hJ, rfl, .inr ?_⟩
    rw [huntyped, he']
    rfl
  · rw [if_neg hend] at hnew
    refine ⟨s, _, e, hnew, hm.sameShape.connected.mpr hJ, hstate, ?_⟩
    rw [huntyped, hm.sameShape.peer?]
    have hpeer := hl.peer?_of_ne h (fun he => hend (.inl he)) fun he => hend (.inr he)
    rw [show (ws.attached o i).graph.peer? s = ws.graph.peer? s from hpeer]
    exact hfault

theorem coherent (h : ws.Sound) (hl : Graph.Linkable ws.graph o i p c)
    (hcycle : ¬ Relation.ReflTransGen ws.graph.Feeds c p)
    (hz : MostGeneral z (ws.linkEquations o i)) (hp : ws.Coherent p) (hc : ws.Coherent c) :
    ws'.Coherent p := by
  have hjoined : ∀ m, ws.Joined o i p m ↔ ws.graph.Connected p m ∨ ws.graph.Connected c m :=
    fun m => hl.connected_iff
  refine .of_sameShape hm.sameShape (fun m node hJ hnode => ?_)
    (hl.exists_rank hcycle hp.ranked hc.ranked) (fun s socket hs hJ => ?_) ?_
  · exact ((hjoined m).mp hJ).elim (fun hpm => hp.typed m node hpm hnode)
      fun hcm => hc.typed m node hcm hnode
  · have hown : ws.graph.owner? s = some socket.node := hm.sameShape.owner?_of_socket? hs
    obtain ⟨old, hold, hnode⟩ := Option.map_eq_some_iff.mp hown
    have hnew := hm.socket s old ⟨_, hown, hJ⟩ hold
    rw [hs] at hnew
    cases hnew
    by_cases hend : s = o ∨ s = i
    · exact .inl (if_pos hend)
    · rw [if_neg hend]
      rw [settledState_attached h.graph hl hend]
      exact ((hjoined _).mp hJ).elim (hp.states s old hold) (hc.states s old hold)
  · exact (generates_attached h hl hp hc hz).congr_family fun s hs => hm.stored_joined hs

theorem settled (h : ws.Sound) (hl : Graph.Linkable ws.graph o i p c)
    (hcycle : ¬ Relation.ReflTransGen ws.graph.Feeds c p)
    (hz : MostGeneral z (ws.linkEquations o i)) (hsettled : ws.Settled) : ws'.Settled := by
  intro n node hn
  have hold : ws.graph.node? n = some node := (hm.sameShape.node? n).symm.trans hn
  by_cases hJ : ws.Joined o i p n
  · refine .of_connected (hm.sameShape.connected.mpr hJ.symm) ?_
    obtain ⟨pnode, hpnode, _⟩ := Graph.owner?_node h.graph hl.owner_output
    obtain ⟨cnode, hcnode, _⟩ := Graph.owner?_node h.graph hl.owner_input
    rcases hsettled p pnode hpnode with hp | hp
    · rcases hsettled c cnode hcnode with hc | hc
      · exact .inl (hm.coherent h hl hcycle hz hp hc)
      · exact .inr (hm.faulty h.graph hl (hl.connected_iff.mpr (.inr (.refl _ _))) hc)
    · exact .inr (hm.faulty h.graph hl (.refl _ _) hp)
  · exact hm.holds_of_not_joined Good.of_same h hl hJ (hsettled n node hold)

end LinkMade

theorem connect_kept (h : ws.Sound) (hok : connect o i ws = .ok () ws') :
    ws'.Sound ∧ (ws.Settled → ws'.Settled) := by
  obtain ⟨p, c, z, hl, hcycle, hz, hm⟩ := connect_ok h.graph hok
  exact ⟨hm.sound h hl hz, hm.settled h hl hcycle hz⟩

/-! ## Attaching -/

theorem attach_ok (hok : attach o i ws = .ok () ws') :
    (∃ p c, Graph.Linkable ws.graph o i p c) ∧ ws' = ws.attached o i := by
  rw [attach] at hok
  split at hok
  · cases hok
  next hcheck =>
  obtain ⟨p, c, hl, _⟩ := checkLink_ok hcheck
  cases hok
  exact ⟨⟨p, c, hl⟩, rfl⟩

theorem attach_eq (hl : Graph.Linkable ws.graph o i p c) :
    attach o i ws = .ok () (ws.attached o i) := by
  simp only [attach, checkLink_of_linkable hl]
  rfl

theorem attached_sound (h : ws.Sound) (hl : Graph.Linkable ws.graph o i p c) :
    (ws.attached o i).Sound :=
  ⟨hl.wellFormed h.graph, h.nodes, h.below, fun s t socket socket' v hs ht hvs hvt =>
    hl.connected_mono (h.apart s t socket socket' v hs ht hvs hvt)⟩

end Workspace
end BlockGraph
