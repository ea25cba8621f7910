import BlockGraph.Proofs.Workspace.Isolation

/-!
# Where the names in types come from

A name can get into the type of a socket over many links, and through pattern variables also from
the fields of a type that a distinction of cases is about.  But it always comes from a node of
the same component: from the signature or the type of a node, or from a field that a
distinction of cases binds.  `Sourced` says this of all sockets, and it holds of every
workspace that edits lead to.

A rebuild starts from copies of the shapes of nodes and solves the links among them.  Solving
brings no names into a component that are not in its equations.  So an edit has to rebuild no
more than the components of the nodes whose signatures or fields it changes.
-/

namespace BlockGraph
namespace Workspace

variable {ws ws' ws₁ : Workspace} {m n : NodeId} {node : Node} {name : String} {s : SocketId}
  {seeds : List SocketId}

/-- A node brings a name into its component, with its signature or type or with the fields that its
branches bind. -/
inductive Brings (ws : Workspace) (m : NodeId) (name : String) : Prop
  | scheme {node : Node} {scheme : List Ty} {t : Ty} (hm : ws.graph.node? m = some node)
      (htyped : node.untyped = none) (hscheme : node.scheme? = some scheme) (ht : t ∈ scheme)
      (hname : name ∈ t.literalNames)
  | field {node : Node} {type : String} {binders : List (List String)} {branch field : Nat} {t : Ty}
      (hm : ws.graph.node? m = some node) (hblock : node.block = .caseOf type binders)
      (hfield : ws.registry.fieldType? type branch field = some t) (hname : name ∈ t.literalNames)

/-- Something that hangs together with a node brings a name. -/
def Reaches (ws : Workspace) (n : NodeId) (name : String) : Prop :=
  ∃ m, ws.graph.Connected n m ∧ ws.Brings m name

/-- The names in the types of sockets come from nodes that hang together with them. -/
def Sourced (ws : Workspace) : Prop :=
  ∀ s n, ws.graph.owner? s = some n → ∀ name ∈ (ws.stored s).literalNames, ws.Reaches n name

theorem Brings.of_sameAt (hsame : SameAt ws ws' m) (h : ws.Brings m name) : ws'.Brings m name := by
  cases h with
  | scheme hm htyped hscheme ht hname =>
    exact .scheme (hsame.graph.node.trans hm) htyped hscheme ht hname
  | field hm hblock hfield hname =>
    rw [← hsame.fields _ _ _ hm hblock] at hfield
    exact .field (hsame.graph.node.trans hm) hblock hfield hname

theorem Brings.of_sameShape (hshape : SameShape ws ws') (h : ws.Brings m name) :
    ws'.Brings m name := by
  cases h with
  | scheme hm htyped hscheme ht hname =>
    exact .scheme ((hshape.node? m).trans hm) htyped hscheme ht hname
  | field hm hblock hfield hname =>
    exact .field ((hshape.node? m).trans hm) hblock (hshape.registry ▸ hfield) hname

theorem Reaches.of_sameShape (hshape : SameShape ws ws') (h : ws.Reaches n name) :
    ws'.Reaches n name := by
  obtain ⟨m, hc, hm⟩ := h
  exact ⟨m, hshape.connected.mpr hc, hm.of_sameShape hshape⟩

theorem Reaches.of_connected (hc : ws.graph.Connected n m) (h : ws.Reaches m name) :
    ws.Reaches n name := by
  obtain ⟨k, hk, hbrings⟩ := h
  exact ⟨k, hc.trans hk, hbrings⟩

/-- A pattern variable has its names from the distinction of cases that binds it. -/
theorem reaches_of_site {site : BindingSite} (h : ws.graph.WellFormed)
    (hsite : bindingSite? ws.graph none n = some site)
    (hname : name ∈ (fieldScheme ws.registry site).literalNames) : ws.Reaches n name := by
  obtain ⟨node, binders, hc, hnode, hblock⟩ := bindingSite?_connected h hsite
  rw [fieldScheme] at hname
  cases hfield : ws.registry.fieldType? site.type site.branch site.field with
  | none =>
    rw [hfield] at hname
    cases hname
  | some t =>
    rw [hfield] at hname
    exact ⟨site.node, hc, .field hnode hblock hfield hname⟩

theorem reaches_of_shape {shape : List Ty} {t : Ty} (h : ws.graph.WellFormed)
    (hn : ws.graph.node? n = some node) (htyped : node.untyped = none)
    (hshape : ws.shape? n = some shape) (ht : t ∈ shape) (hname : name ∈ t.literalNames) :
    ws.Reaches n name := by
  rw [shape?] at hshape
  split at hshape
  · next site hsite =>
    cases hshape
    rw [List.mem_singleton.mp ht] at hname
    exact reaches_of_site h hsite hname
  · rw [hn] at hshape
    exact ⟨n, .refl _ n, .scheme hn htyped hshape ht hname⟩

/-! ## Rebuilds -/

theorem Refreshed.reaches {nodes : List NodeId} (h : ws.graph.WellFormed)
    (hr : Refreshed ws ws₁ nodes)
    (hsound : ∀ n node, ws.graph.node? n = some node → node.Sound ws.registry)
    (hunsigned : ws.Unsigned) (hn : n ∈ nodes) (hs : ws.graph.owner? s = some n)
    (hname : name ∈ (ws₁.stored s).literalNames) : ws.Reaches n name := by
  obtain ⟨node, hnode, hmem⟩ := Graph.owner?_node h hs
  have hcopied : ∀ shape, CopyOf node shape ws₁.stored →
      ∃ t ∈ shape, name ∈ t.literalNames := by
    rintro shape ⟨f, _, hcopy⟩
    have hstored : ws₁.stored s ∈ node.sockets.map ws₁.stored := List.mem_map_of_mem hmem
    rw [hcopy] at hstored
    obtain ⟨t, ht, heq⟩ := List.mem_map.mp hstored
    rw [← heq, TyTerm.literalNames_map] at hname
    exact ⟨t, ht, hname⟩
  by_cases htyped : node.untyped = none
  · obtain ⟨shape, hshape, hcopy⟩ := hr.copy n hn node hnode (hsound n node hnode) htyped
    obtain ⟨t, ht, hname⟩ := hcopied shape hcopy
    exact reaches_of_shape h hnode htyped hshape ht hname
  · have hcopy := hr.loose n hn node hnode (hsound n node hnode) htyped
      (hunsigned n node hnode htyped)
    obtain ⟨t, ht, hname⟩ := hcopied _ hcopy
    obtain ⟨_, _, rfl⟩ := List.mem_map.mp ht
    cases hname

/-- The names in a component that is rebuilt come from its nodes. -/
theorem Finished.reaches {z : TyVar → Ty} {state : SocketId → SocketState} {es : List Equation}
    (h : ws.graph.WellFormed) (hr : Refreshed ws ws₁ (ws.graph.component seeds).nodes)
    (hf : Finished ws₁ ws' (ws.graph.component seeds).sockets z state) (hz : MostGeneral z es)
    (hes : ∀ e ∈ es, ∃ a b, ws.graph.Wired a b ∧
      ws.SocketOf (fun n => n ∈ (ws.graph.component seeds).nodes) a ∧
      e = (ws₁.stored a, ws₁.stored b))
    (hsound : ∀ n node, ws.graph.node? n = some node → node.Sound ws.registry)
    (hunsigned : ws.Unsigned) (hn : n ∈ (ws.graph.component seeds).nodes)
    (hs : ws.graph.owner? s = some n) (hname : name ∈ (ws'.stored s).literalNames) :
    ws.Reaches n name := by
  by_contra hnone
  have hfree : ∀ t, ws.SocketOf (ws.graph.Connected n) t → name ∉ (ws₁.stored t).literalNames := by
    rintro t ⟨m, hm, hc⟩ hmem
    exact hnone (Reaches.of_connected hc
      (hr.reaches h hsound hunsigned (Graph.component_closed h hn hc) hm hmem))
  obtain ⟨_, _, _, hstored⟩ :=
    finished_socket h hr hf ((Graph.mem_component_sockets h).mpr ⟨n, hs, hn⟩)
  rw [hstored] at hname
  rcases TyTerm.mem_literalNames_bind_iff.mp hname with hown | ⟨v, hv, hsolved⟩
  · exact hfree s ⟨n, hs, .refl _ n⟩ hown
  · -- The variables of what hangs together with the socket are one side of the equations.
    let side : TyVar → Prop := fun v =>
      ∃ t, ws.SocketOf (ws.graph.Connected n) t ∧ v ∈ (ws₁.stored t).leaves
    refine hz.not_mem_literalNames_of_divided side (fun e he => ?_) ⟨s, ⟨n, hs, .refl _ n⟩, hv⟩
      hsolved
    rcases equation_divided h hr hes hn he with ⟨a, b, hw, ha, rfl⟩ | hother
    · have hb : ws.SocketOf (ws.graph.Connected n) b := by
        obtain ⟨m, hm, hc⟩ := ha
        obtain ⟨k, _, hk⟩ := h.wired_input a b hw
        have hkb := Graph.owner?_eq_some_iff.mpr ⟨_, hk⟩
        exact ⟨k, hkb, hc.tail ⟨a, b, hm, hkb, .inl hw⟩⟩
      refine .inl ⟨fun w hw => ?_, hfree a ha, hfree b hb⟩
      rcases List.mem_append.mp hw with hw | hw
      · exact ⟨a, ha, hw⟩
      · exact ⟨b, hb, hw⟩
    · refine .inr ?_
      rintro w hw ⟨t, ht, hwt⟩
      obtain ⟨hl, hr⟩ := hother t ht w hwt
      exact (List.mem_append.mp hw).elim hl hr

theorem recompute_reaches (h : ws.graph.WellFormed)
    (hsound : ∀ n node, ws.graph.node? n = some node → node.Sound ws.registry)
    (hunsigned : ws.Unsigned) (hn : n ∈ (ws.graph.component seeds).nodes)
    (hs : ws.graph.owner? s = some n)
    (hname : name ∈ ((ws.recompute seeds).2.stored s).literalNames) : ws.Reaches n name := by
  cases horder : ws.graph.topologicalOrder (ws.graph.component seeds).nodes with
  | error cycle =>
    rw [recompute_of_cycle h horder] at hname
    exact (invalidate_finished _ _ (Graph.component_sockets_nodup h seeds)).reaches h
      (refreshed_component h seeds) mostGeneral_nil (fun e he => absurd he List.not_mem_nil) hsound
      hunsigned hn hs hname
  | ok order =>
    obtain ⟨ws₁, z, failures, es, hsolved, _⟩ := recompute_solved h horder
    exact hsolved.finished.reaches h hsolved.refreshed hsolved.solved hsolved.equations hsound
      hunsigned hn hs hname

theorem RebuiltFrom.sourced (h : ws.Sound) (hr : RebuiltFrom ws ws') (hunsigned : ws'.Unsigned)
    (hsourced : ws.Sourced) : ws'.Sourced := by
  obtain ⟨ws₁, seeds, hp, rfl⟩ := hr
  have hb := recompute_rebuilt hp.graph hp.nodes seeds
  have hshape := hb.sameShape
  intro s n hs name hname
  have hs₁ : ws₁.graph.owner? s = some n := (hshape.owner? s).symm.trans hs
  by_cases hmem : n ∈ (ws₁.graph.component seeds).nodes
  · refine Reaches.of_sameShape hshape (recompute_reaches hp.graph hp.nodes ?_ hmem hs₁ hname)
    exact fun m node hm => hunsigned m node ((hshape.node? m).trans hm)
  · -- A component that is not rebuilt is as it was.
    obtain ⟨node, hnode, _⟩ := Graph.owner?_node hp.graph hs₁
    obtain ⟨_, hsame⟩ := hp.same_recompute h.graph hnode hmem
    have hgraph := hshape.wellFormed.mpr hp.graph
    have hself := (hsame n (.refl _ n)).graph
    have hold := (hself.owner h.graph hgraph).mp hs
    have hstored : (ws₁.recompute seeds).2.stored s = ws.stored s := by
      rw [stored, typeOf?, hself.socket s hold, stored, typeOf?]
    rw [hstored] at hname
    obtain ⟨m, hc, hbrings⟩ := hsourced s n hold name hname
    exact ⟨m, (connected_iff_of_same h.graph hgraph hsame).mpr hc, hbrings.of_sameAt (hsame m hc)⟩

theorem recomputeEach_sourced (h : ws.Sound) (hunsigned : ws.Unsigned) (hsourced : ws.Sourced)
    (nodes : List NodeId) : (ws.recomputeEach nodes).2.Sourced := by
  induction nodes generalizing ws with
  | nil => exact hsourced
  | cons x rest ih =>
    let seeds := (ws.graph.socketAt? x .output).toList
    have hp := h.prepared seeds
    have hshape := (recompute_rebuilt h.graph h.nodes seeds).sameShape
    have hunsigned' : (ws.recompute seeds).2.Unsigned := fun m node hm =>
      hunsigned m node ((hshape.node? m).symm.trans hm)
    exact ih (hp.sound h) hunsigned'
      (RebuiltFrom.sourced h ⟨ws, seeds, hp, rfl⟩ hunsigned' hsourced)

/-! ## Links and names -/

/-- Nothing is lost when a link comes in. -/
theorem Reaches.attached {o i : SocketId} {p c : NodeId} (hl : Graph.Linkable ws.graph o i p c)
    (h : ws.Reaches n name) : (ws.attached o i).Reaches n name := by
  obtain ⟨m, hc, hbrings⟩ := h
  refine ⟨m, hl.connected_mono hc, ?_⟩
  cases hbrings with
  | scheme hm htyped hscheme ht hname => exact .scheme hm htyped hscheme ht hname
  | field hm hblock hfield hname => exact .field hm hblock hfield hname

theorem connect_sourced (h : ws.Sound) {o i : SocketId} (hok : connect o i ws = .ok () ws')
    (hsourced : ws.Sourced) : ws'.Sourced := by
  obtain ⟨p, c, z, hl, _, hz, hm⟩ := connect_ok h.graph hok
  intro s n hs name hname
  refine Reaches.of_sameShape hm.sameShape ?_
  rw [hm.owner?] at hs
  by_cases hJ : ws.Joined o i p n
  · by_contra hnone
    have hgraph := hl.wellFormed h.graph
    have hfree : ∀ t, ws.SocketOf (ws.Joined o i p) t → name ∉ (ws.stored t).literalNames := by
      rintro t ⟨m, ht, hmJ⟩ hmem
      exact hnone (Reaches.of_connected (hJ.symm.trans hmJ)
        ((hsourced t m ht name hmem).attached hl))
    rw [hm.stored_joined ⟨n, hs, hJ⟩] at hname
    rcases TyTerm.mem_literalNames_bind_iff.mp hname with hown | ⟨v, _, hsolved⟩
    · exact hfree s ⟨n, hs, hJ⟩ hown
    · refine hz.not_mem_literalNames_of_divided (fun _ => True)
        (fun e he => .inl ⟨fun _ _ => trivial, ?_⟩) trivial hsolved
      rcases List.mem_cons.mp he with rfl | he
      · exact ⟨hfree o (socketOf_output hl), hfree i (socketOf_input hl)⟩
      · -- A pattern variable that comes into scope has the names of its field.
        obtain ⟨x, hx, rfl⟩ := List.mem_map.mp he
        obtain ⟨m, hmem, node, site, hentry⟩ := (linkScope_listed ws o i).entry x hx
        have hmJ := (mem_component_link h.graph hl).mp hmem
        refine ⟨hfree x.1 ⟨m, hentry.owner? h.graph, hmJ⟩, fun hfield => hnone ?_⟩
        obtain ⟨f, _, hcopy⟩ := hentry.copy
        rw [hcopy, TyTerm.literalNames_map] at hfield
        have hsite := hentry.bound
        rw [← bindingSite?_attached h.graph hl] at hsite
        exact Reaches.of_connected (hJ.symm.trans hmJ) (reaches_of_site hgraph hsite hfield)
  · have hother : ¬ ws.SocketOf (ws.Joined o i p) s := by
      rintro ⟨m, hsm, hmJ⟩
      cases hs.symm.trans hsm
      exact hJ hmJ
    rw [hm.stored_other hother] at hname
    exact (hsourced s n hs name hname).attached hl

/-- Other names are put into types and fields alike. -/
theorem Renames.sourced {F : Node → Node} {old new : String} (hr : Renames F old new ws ws')
    (hcase : ∀ node type binders, node.block = .caseOf type binders →
      (F node).block = .caseOf (if type = old then new else type) binders)
    (hsourced : ws.Sourced) : ws'.Sourced := by
  intro s n hs name hname
  rw [Graph.owner?_congr hr.outline] at hs
  rw [hr.stored, TyTerm.literalNames_renameLiteral] at hname
  obtain ⟨given, hgiven, rfl⟩ := List.mem_map.mp hname
  obtain ⟨m, hc, hbrings⟩ := hsourced s n hs given hgiven
  refine ⟨m, by rwa [Graph.connected_congr hr.outline], ?_⟩
  have hrenamed : ∀ t : Ty, given ∈ t.literalNames →
      (if given = old then new else given) ∈ (t.renameLiteral old new).literalNames := by
    intro t ht
    rw [TyTerm.literalNames_renameLiteral]
    exact List.mem_map.mpr ⟨given, ht, rfl⟩
  cases hbrings with
  | @scheme node scheme t hm htyped hscheme ht hname =>
    have hscheme' : (F node).scheme? = some (scheme.map (TyTerm.renameLiteral old new)) := by
      rw [hr.scheme, hscheme, Option.map_some]
    exact .scheme (by rw [hr.node, hm, Option.map_some]) ((hr.untyped node).trans htyped) hscheme'
      (List.mem_map_of_mem ht) (hrenamed t hname)
  | @field node type binders branch field t hm hblock hfield hname =>
    obtain ⟨u, hu, _⟩ := Option.bind_eq_some_iff.mp hfield
    have hfield' := hr.fields type u hu branch field
    rw [hfield, Option.map_some] at hfield'
    exact .field (by rw [hr.node, hm, Option.map_some]) (hcase node type binders hblock) hfield'
      (hrenamed t hname)

/-! ## Runs -/

theorem Action.run_sourced {action : Action} (h : ws.Sound) (hrun : action.run ws = some ws')
    (hunsigned : ws.Unsigned) (hunsigned' : ws'.Unsigned) (hsourced : ws.Sourced) :
    ws'.Sourced := by
  cases action.run_outcome h hrun with
  | rebuilt hb => exact hb.sourced h hunsigned' hsourced
  | connected hok => exact connect_sourced h hok hsourced
  | typeRenamed hok =>
    rcases renameType_ok h.graph hok with ⟨_, rfl⟩ | ⟨registry, _, _, hr, rfl⟩
    · exact hsourced
    · have hsound := hr.sound_workspace h
      refine (retryUntyped_rebuiltFrom hsound).sourced hsound hunsigned' (hr.sourced ?_ hsourced)
      intro node type binders hblock
      rw [Node.renameType, hblock]
      rfl
  | ctorRenamed hok =>
    refine (renameCtor_ok hok).sourced (fun node type binders hblock => ?_) hsourced
    rw [Node.renameCtor, hblock]
    simp only [Block.renameCtor, Block.caseOf.injEq, and_true]
    split
    · assumption
    · rfl
  | attached hok =>
    obtain ⟨⟨p, c, hl⟩, rfl⟩ := attach_ok hok
    exact fun s n hs name hname => (hsourced s n hs name hname).attached hl
  | resolved => exact recomputeEach_sourced h hunsigned hsourced _

theorem Reachable.sourced (h : ws.Reachable) : ws.Sourced := by
  induction h with
  | empty =>
    intro s n hs
    obtain ⟨node, hnode, _⟩ := Graph.owner?_node empty_sound.graph hs
    cases (empty_node? n).symm.trans hnode
  | @run ws ws' action h hrun ih =>
    exact action.run_sourced h.sound hrun h.visited.unsigned (h.run hrun).visited.unsigned ih
  | clear _ hok _ =>
    intro s n hs
    obtain ⟨node, hnode, _⟩ := Graph.owner?_node (clear_sound hok).graph hs
    cases (clear_node? hok n).symm.trans hnode

end Workspace
end BlockGraph
