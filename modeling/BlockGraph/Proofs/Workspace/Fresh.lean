import BlockGraph.Proofs.Workspace.Scope

/-!
# Fresh instances

Before a component is solved again, each of its nodes gets a copy of its shape with
variables of its own.  The copies have no variables in common with each other or
with the types that were there.
-/

namespace BlockGraph

/-- The variables of a type lie between two bounds. -/
def TyTerm.Within (lo hi : TyVar) (t : Ty) : Prop :=
  ∀ v ∈ t.leaves, lo ≤ v ∧ v < hi

theorem TyTerm.Within.mono {lo hi lo' hi' : TyVar} {t : Ty} (h : t.Within lo hi) (hlo : lo' ≤ lo)
    (hhi : hi ≤ hi') : t.Within lo' hi' :=
  fun v hv => ⟨Nat.le_trans hlo (h v hv).1, Nat.lt_of_lt_of_le (h v hv).2 hhi⟩

namespace Workspace

variable {ws ws' ws'' : Workspace} {m n : NodeId} {node : Node} {s t : SocketId} {A : Assignment}

/-! ## Workspaces that differ in types and states -/

/-- The workspaces agree in everything but the types and states of sockets and the supply. -/
structure SameShape (ws ws' : Workspace) : Prop where
  nodes : ws'.graph.nodes = ws.graph.nodes
  outline : ws'.graph.outline = ws.graph.outline
  registry : ws'.registry = ws.registry

namespace SameShape

theorem refl (ws : Workspace) : SameShape ws ws :=
  ⟨rfl, rfl, rfl⟩

theorem trans (h : SameShape ws ws') (h' : SameShape ws' ws'') : SameShape ws ws'' :=
  ⟨h'.nodes.trans h.nodes, h'.outline.trans h.outline, h'.registry.trans h.registry⟩

theorem symm (h : SameShape ws ws') : SameShape ws' ws :=
  ⟨h.nodes.symm, h.outline.symm, h.registry.symm⟩

theorem node? (h : SameShape ws ws') (n : NodeId) : ws'.graph.node? n = ws.graph.node? n := by
  rw [Graph.node?, h.nodes, Graph.node?]

theorem owner? (h : SameShape ws ws') (s : SocketId) :
    ws'.graph.owner? s = ws.graph.owner? s :=
  Graph.owner?_congr h.outline

theorem owner?_of_socket? (h : SameShape ws ws') {socket : Socket}
    (hs : ws'.graph.socket? s = some socket) : ws.graph.owner? s = some socket.node :=
  (h.owner? s).symm.trans (Graph.owner?_of_socket? hs)

theorem peer? (h : SameShape ws ws') (s : SocketId) : ws'.graph.peer? s = ws.graph.peer? s :=
  Graph.peer?_eq_of_outline h.outline

theorem wellFormed (h : SameShape ws ws') : ws'.graph.WellFormed ↔ ws.graph.WellFormed :=
  Graph.wellFormed_congr h.outline

theorem bindingSite? (h : SameShape ws ws') (pending : Option Link) (n : NodeId) :
    Workspace.bindingSite? ws'.graph pending n = Workspace.bindingSite? ws.graph pending n :=
  bindingSite?_of_outline (fun n => congrArg _ (h.node? n)) h.outline pending n

theorem connected (h : SameShape ws ws') : ws'.graph.Connected m n ↔ ws.graph.Connected m n := by
  rw [Graph.connected_congr h.outline]

theorem inScope (h : SameShape ws ws') : ws'.InScope n node A ↔ ws.InScope n node A := by
  rw [InScope, InScope, h.bindingSite?, h.registry]

theorem shape? (h : SameShape ws ws') (n : NodeId) : ws'.shape? n = ws.shape? n := by
  rw [Workspace.shape?, Workspace.shape?, h.bindingSite?, h.registry, h.node?]

theorem settledState (h : SameShape ws ws') (s : SocketId) :
    ws'.settledState s = ws.settledState s := by
  have hnode : ws'.graph.node? = ws.graph.node? := funext h.node?
  rw [Workspace.settledState, Workspace.settledState, untyped?, untyped?, h.owner?, hnode, h.peer?]

theorem typing (h : SameShape ws ws') {K : NodeId → Prop} :
    ws'.Typing K A ↔ ws.Typing K A := by
  constructor
  · intro hA
    exact ⟨fun n node hn hnode => hA.node n node hn (by rwa [h.node?]),
      fun a b n hw ha => hA.wire a b n ((Graph.wired_congr h.outline).mpr hw) (by rwa [h.owner?]),
      fun n node hn hnode => h.inScope.mp (hA.scope n node hn (by rwa [h.node?]))⟩
  · intro hA
    exact ⟨fun n node hn hnode => hA.node n node hn (by rwa [← h.node?]),
      fun a b n hw ha => hA.wire a b n ((Graph.wired_congr h.outline).mp hw) (by rwa [← h.owner?]),
      fun n node hn hnode => h.inScope.mpr (hA.scope n node hn (by rwa [← h.node?]))⟩

end SameShape

/-! ## The instance of one node -/

/-- An instance with variables from the supply is a copy of a scheme. -/
def CopiedFrom (s : Supply) (scheme : List Ty) (copy : (List Ty × Ty) × Supply) : Prop :=
  ∃ vs : List TyVar, (∀ v ∈ TyTerm.leavesAll scheme, v ∈ vs) ∧ copy.2 = s.skip vs.length ∧
    copy.1.1 ++ [copy.1.2] = scheme.map (TyTerm.map (s.numbered vs))

theorem copiedFrom_fresh (s : Supply) (v : TyVar) :
    CopiedFrom s [.var v] (([], s.fresh.1), s.fresh.2) :=
  ⟨[v], by simp [TyTerm.leavesAll], rfl, by simp [Supply.fresh, Supply.numbered]⟩

theorem copiedFrom_instantiate (s : Supply) (t : Ty) :
    CopiedFrom s [t] (([], (t.instantiate s).1), (t.instantiate s).2) :=
  ⟨t.vars, fun v hv => by simpa [TyTerm.leavesAll, TyTerm.mem_vars] using hv, rfl, rfl⟩

theorem copiedFrom_uncurry (s : Supply) (t : Ty) :
    CopiedFrom s (t.uncurry.1 ++ [t.uncurry.2])
      ((t.instantiate s).1.uncurry, (t.instantiate s).2) := by
  refine ⟨t.vars, fun v hv => TyTerm.mem_vars.mpr (t.leavesAll_uncurry hv), rfl, ?_⟩
  simp [TyTerm.instantiate, TyTerm.uncurry_map]

namespace CopiedFrom

variable {supply : Supply} {scheme : List Ty} {copy : (List Ty × Ty) × Supply}

theorem le (h : CopiedFrom supply scheme copy) : supply.next ≤ copy.2.next := by
  obtain ⟨vs, _, hskip, _⟩ := h
  rw [hskip]
  exact Nat.le_add_right _ _

theorem within (h : CopiedFrom supply scheme copy) :
    ∀ t ∈ copy.1.1 ++ [copy.1.2], t.Within supply.next copy.2.next := by
  obtain ⟨vs, hleaves, hskip, hcopy⟩ := h
  intro t ht w hw
  rw [hcopy] at ht
  obtain ⟨u, hu, rfl⟩ := List.mem_map.mp ht
  obtain ⟨v, hv, rfl⟩ := TyTerm.mem_leaves_map_iff.mp hw
  rw [hskip]
  refine Supply.numbered_range supply (hleaves v ?_)
  rw [TyTerm.leavesAll_eq_flatMap]
  exact List.mem_flatMap.mpr ⟨u, hu, hv⟩

theorem copyOf (h : CopiedFrom supply scheme copy) {τ : Assignment}
    (hτ : node.sockets.map τ = copy.1.1 ++ [copy.1.2]) : CopyOf node scheme τ := by
  obtain ⟨vs, hleaves, _, hcopy⟩ := h
  exact ⟨supply.numbered vs, fun v hv w hw =>
    Supply.numbered_injective supply v (hleaves v hv) w (hleaves w hw), hτ.trans hcopy⟩

theorem length (h : CopiedFrom supply scheme copy) : scheme.length = copy.1.1.length + 1 := by
  obtain ⟨vs, _, _, hcopy⟩ := h
  have hcount := congrArg List.length hcopy
  rw [List.length_map, List.length_append, List.length_singleton] at hcount
  exact hcount.symm

end CopiedFrom

theorem instanceOf_localVar {name : String} (hblock : node.block = .localVar name) :
    ws.instanceOf n node =
      match bindingSite? ws.graph none n with
      | some site => (([], (siteType ws.registry site ws.supply).1),
          (siteType ws.registry site ws.supply).2)
      | none => (([], ws.supply.fresh.1), ws.supply.fresh.2) := by
  simp only [instanceOf, hblock, binding?]
  cases bindingSite? ws.graph none n <;> rfl

theorem siteType_copied (r : Registry) (site : BindingSite) (s : Supply) :
    CopiedFrom s [(r.fieldType? site.type site.branch site.field).getD (.var 0)]
      (([], (siteType r site s).1), (siteType r site s).2) := by
  rw [siteType]
  cases r.fieldType? site.type site.branch site.field with
  | none => exact copiedFrom_fresh s 0
  | some t => exact copiedFrom_instantiate s t

/-- The instance of a pattern variable is a variable or a copy of the type of a field. -/
theorem instanceOf_copied_localVar {name : String} (hn : ws.graph.node? n = some node)
    (hblock : node.block = .localVar name) :
    ∃ scheme, CopiedFrom ws.supply scheme (ws.instanceOf n node) ∧
      (node.Sound ws.registry → ws.shape? n = some scheme) := by
  rw [instanceOf_localVar hblock]
  cases hsite : bindingSite? ws.graph none n with
  | some site =>
    exact ⟨_, siteType_copied ws.registry site ws.supply, fun _ => by rw [shape?, hsite]⟩
  | none =>
    by_cases hsound : node.Sound ws.registry
    · obtain ⟨_, v, hv⟩ := hsound.localVar name hblock
      refine ⟨_, copiedFrom_fresh ws.supply v, fun _ => ?_⟩
      simp [shape?, hsite, hn, Node.scheme?, hv, TyTerm.uncurry]
    · exact ⟨_, copiedFrom_fresh ws.supply 0, fun h => absurd h hsound⟩

/-- The instance of a node is a copy of a scheme, which is the shape of a node that has one. -/
theorem instanceOf_copied (ws : Workspace) (hn : ws.graph.node? n = some node) :
    ∃ scheme, CopiedFrom ws.supply scheme (ws.instanceOf n node) ∧
      (node.Sound ws.registry → node.untyped = none → ws.shape? n = some scheme) := by
  by_cases hlocal : ∃ name, node.block = .localVar name
  · obtain ⟨name, hblock⟩ := hlocal
    obtain ⟨scheme, hcopy, hshape⟩ := instanceOf_copied_localVar hn hblock
    exact ⟨scheme, hcopy, fun hsound _ => hshape hsound⟩
  have hshape : ws.shape? n = node.scheme? := by
    cases hsite : bindingSite? ws.graph none n with
    | none => simp [shape?, hsite, hn]
    | some site =>
      obtain ⟨name, hblock, _⟩ := bindingSite?_block hn hsite
      exact absurd ⟨name, hblock⟩ hlocal
  rw [hshape]
  cases hsig : node.signature with
  | some t =>
    have hinst : ws.instanceOf n node =
        ((t.instantiate ws.supply).1.uncurry, (t.instantiate ws.supply).2) := by
      cases hblock : node.block with
      | localVar name => exact absurd ⟨name, hblock⟩ hlocal
      | _ => simp only [instanceOf, hblock, hsig]
    rw [hinst]
    exact ⟨_, copiedFrom_uncurry ws.supply t, fun _ _ => by simp [Node.scheme?, hsig]⟩
  | none =>
    -- A node without a signature has no scheme, unless it is a literal.
    have hfresh : ws.instanceOf n node = (([], ws.supply.fresh.1), ws.supply.fresh.2) →
        (node.untyped = none → node.scheme? = none) →
        ∃ scheme, CopiedFrom ws.supply scheme (ws.instanceOf n node) ∧
          (node.Sound ws.registry → node.untyped = none → node.scheme? = some scheme) := by
      intro hinst hnone
      rw [hinst]
      refine ⟨_, copiedFrom_fresh ws.supply 0, fun hsound htyped => ?_⟩
      obtain ⟨scheme, hscheme, _⟩ := hsound.arity htyped
      rw [hnone htyped] at hscheme
      cases hscheme
    cases hblock : node.block with
    | localVar name => exact absurd ⟨name, hblock⟩ hlocal
    | literal ty value =>
      cases htyped : node.untyped with
      | none =>
        have hinst : ws.instanceOf n node =
            (([], (ty.instantiate ws.supply).1), (ty.instantiate ws.supply).2) := by
          simp [instanceOf, hblock, hsig, htyped]
        rw [hinst]
        exact ⟨_, copiedFrom_instantiate ws.supply ty,
          fun _ _ => by simp [Node.scheme?, hsig, hblock]⟩
      | some e =>
        rw [← htyped]
        exact hfresh (by simp [instanceOf, hblock, hsig, htyped]) fun h => by
          rw [htyped] at h
          cases h
    | _ =>
      exact hfresh (by simp [instanceOf, hblock, hsig])
        fun _ => by simp [Node.scheme?, hsig, hblock]

theorem instanceOf_untyped (hsound : node.Sound ws.registry) (huntyped : node.untyped ≠ none)
    (hsig : node.signature = none) :
    ws.instanceOf n node = (([], ws.supply.fresh.1), ws.supply.fresh.2) := by
  cases hblock : node.block with
  | localVar name => exact absurd (hsound.localVar name hblock).1 huntyped
  | literal ty value =>
    obtain ⟨e, he⟩ := Option.ne_none_iff_exists'.mp huntyped
    simp [instanceOf, hblock, hsig, he]
  | _ => simp only [instanceOf, hblock, hsig]

theorem inputTypes_of_length {inputs : List SocketId} {params : List Ty}
    (h : params.length = inputs.length) (s : Supply) :
    inputTypes inputs params s = (inputs.zip params, s) := by
  induction inputs generalizing params with
  | nil => rw [inputTypes, List.zip_nil_left]
  | cons i inputs ih =>
    cases params with
    | nil => cases h
    | cons t params =>
      rw [inputTypes, ih (Nat.succ.inj h)]
      rfl

theorem inputTypes_spec (inputs : List SocketId) (params : List Ty) (s : Supply) :
    (inputTypes inputs params s).1.map Prod.fst = inputs ∧
      s.next ≤ (inputTypes inputs params s).2.next ∧
      ∀ e ∈ (inputTypes inputs params s).1,
        e.2 ∈ params ∨ e.2.Within s.next (inputTypes inputs params s).2.next := by
  induction inputs generalizing params s with
  | nil => exact ⟨rfl, Nat.le_refl _, fun e he => absurd he List.not_mem_nil⟩
  | cons i inputs ih =>
    cases params with
    | cons t params =>
      obtain ⟨hkeys, hle, htypes⟩ := ih params s
      refine ⟨by rw [inputTypes, List.map_cons, hkeys], hle, fun e he => ?_⟩
      rcases List.mem_cons.mp he with rfl | he
      · exact .inl List.mem_cons_self
      · exact (htypes e he).imp_left (List.mem_cons_of_mem t)
    | nil =>
      obtain ⟨hkeys, hle, htypes⟩ := ih [] s.fresh.2
      have hlt : s.next < s.fresh.2.next := Nat.lt_succ_self _
      refine ⟨by rw [inputTypes, List.map_cons, hkeys], Nat.le_trans (Nat.le_of_lt hlt) hle,
        fun e he => .inr ?_⟩
      rcases List.mem_cons.mp he with rfl | he
      · intro v hv
        obtain rfl : v = s.next := List.mem_singleton.mp hv
        exact ⟨Nat.le_refl _, Nat.lt_of_lt_of_le hlt hle⟩
      · rcases htypes e he with hnil | hwithin
        · exact absurd hnil List.not_mem_nil
        · exact hwithin.mono (Nat.le_of_lt hlt) (Nat.le_refl _)

/-- All types that the sockets of a node get have variables from the supply. -/
theorem CopiedFrom.types_within {scheme params : List Ty} {result : Ty} {supply supply' : Supply}
    (h : CopiedFrom supply scheme ((params, result), supply')) (inputs : List SocketId)
    (output : SocketId) :
    ∀ e ∈ (inputTypes inputs params supply').1 ++ [(output, result)],
      e.2.Within supply.next (inputTypes inputs params supply').2.next := by
  obtain ⟨_, hle, htypes⟩ := inputTypes_spec inputs params supply'
  have hrange : ∀ t ∈ params ++ [result], t.Within supply.next supply'.next := h.within
  intro e he
  rcases List.mem_append.mp he with he | he
  · rcases htypes e he with hparam | hwithin
    · exact (hrange e.2 (List.mem_append_left _ hparam)).mono (Nat.le_refl _) hle
    · exact hwithin.mono h.le (Nat.le_refl _)
  · rw [List.mem_singleton.mp he]
    exact (hrange _ (List.mem_append_right _ (List.mem_singleton_self _))).mono
      (Nat.le_refl _) hle

/-- Inputs beyond the parameters get variables of their own. -/
theorem inputTypes_nil (inputs : List SocketId) (s : Supply) :
    (inputTypes inputs [] s).1.map Prod.snd = (List.range' s.next inputs.length).map .var := by
  induction inputs generalizing s with
  | nil => rfl
  | cons i inputs ih =>
    rw [inputTypes, List.length_cons, List.range'_succ, List.map_cons, List.map_cons, ih]
    rfl

/-- The types of the sockets of a node without a signature: a variable for each of them. -/
theorem copyOf_fresh {supply : Supply} {τ : Assignment} (hτ : node.sockets.map τ =
      (inputTypes node.inputs [] supply.fresh.2).1.map Prod.snd ++ [supply.fresh.1]) :
    CopyOf node (node.sockets.map .var) τ := by
  rw [inputTypes_nil] at hτ
  have hvars : node.sockets.map τ =
      (List.range' (supply.next + 1) node.inputs.length ++ [supply.next]).map .var := by
    rw [hτ, List.map_append]
    rfl
  have hvar : ∀ t ∈ node.sockets, ∃ v, τ t = .var v := by
    intro t ht
    have hmem := List.mem_map_of_mem (f := τ) ht
    rw [hvars] at hmem
    obtain ⟨v, _, hv⟩ := List.mem_map.mp hmem
    exact ⟨v, hv.symm⟩
  choose! f hf using hvar
  have hlist : node.sockets.map f = List.range' (supply.next + 1) node.inputs.length ++
      [supply.next] := by
    refine List.map_injective_iff.mpr (fun v w h => TyTerm.var.inj h) ?_
    rw [← hvars, List.map_map]
    exact List.map_congr_left fun t ht => (hf t ht).symm
  have hdistinct : (node.sockets.map f).Nodup := by
    rw [hlist, List.nodup_append']
    refine ⟨List.nodup_range', List.nodup_singleton _, ?_⟩
    intro v hv hv'
    have hlt := (List.mem_range'_1.mp hv).1
    rw [List.mem_singleton.mp hv'] at hlt
    exact Nat.lt_irrefl _ hlt
  refine ⟨f, fun v hv w hw => ?_, ?_⟩
  · have hleaves : TyTerm.leavesAll (node.sockets.map TyTerm.var) = node.sockets := by
      rw [TyTerm.leavesAll_eq_flatMap, List.flatMap_map]
      exact List.flatMap_singleton' _
    rw [hleaves] at hv hw
    exact List.inj_on_of_nodup_map hdistinct hv hw
  · rw [List.map_map]
    exact List.map_congr_left fun t ht => hf t ht

/-- What a fresh instance gives to the sockets of a node. -/
theorem freshInstance_eq (hn : ws.graph.node? n = some node) :
    ∃ (types : List (SocketId × Ty)) (supply : Supply),
      ws.freshInstance n = { ws with graph := ws.graph.setTypes types, supply } ∧
      types.map Prod.fst = node.sockets ∧ ws.supply.next ≤ supply.next ∧
      (∀ e ∈ types, e.2.Within ws.supply.next supply.next) ∧
      (node.Sound ws.registry → node.untyped = none → ∃ shape, ws.shape? n = some shape ∧
        ∀ τ, node.sockets.map τ = types.map Prod.snd → CopyOf node shape τ) ∧
      (node.Sound ws.registry → node.untyped ≠ none → node.signature = none →
        ∀ τ, node.sockets.map τ = types.map Prod.snd →
          CopyOf node (node.sockets.map .var) τ) := by
  obtain ⟨scheme, hcopied, hshape⟩ := instanceOf_copied ws hn
  obtain ⟨⟨⟨params, result⟩, supply⟩, hinst⟩ : ∃ copy, ws.instanceOf n node = copy := ⟨_, rfl⟩
  rw [hinst] at hcopied
  obtain ⟨hkeys, hle, _⟩ := inputTypes_spec node.inputs params supply
  refine ⟨(inputTypes node.inputs params supply).1 ++ [(node.output, result)],
    (inputTypes node.inputs params supply).2, ?_, ?_, Nat.le_trans hcopied.le hle,
    hcopied.types_within node.inputs node.output,
    fun hsound htyped => ⟨scheme, hshape hsound htyped, fun τ hτ => hcopied.copyOf ?_⟩,
    fun hsound huntyped hsig τ hτ => ?_⟩
  · rw [freshInstance, hn]
    simp only [hinst]
  · rw [List.map_append, hkeys]
    rfl
  · obtain ⟨shape, hshape', hlen, _⟩ := exists_shape hn hsound htyped
    rw [hshape hsound htyped] at hshape'
    cases hshape'
    have hlen' : params.length = node.inputs.length := by
      rw [hcopied.length, Node.sockets, List.length_append] at hlen
      exact Nat.succ.inj hlen
    rw [hτ, inputTypes_of_length hlen', List.map_append, List.map_snd_zip (Nat.le_of_eq hlen')]
    rfl
  · rw [instanceOf_untyped hsound huntyped hsig] at hinst
    cases hinst
    rw [List.map_append] at hτ
    exact copyOf_fresh hτ

/-! ## The instances of several nodes -/

/-- Some nodes have got fresh instances of their shapes, and nothing else has changed. -/
structure Refreshed (ws ws' : Workspace) (nodes : List NodeId) : Prop where
  sameShape : SameShape ws ws'
  supply : ws.supply.next ≤ ws'.supply.next
  other : ∀ t, (∀ n ∈ nodes, ws.graph.owner? t ≠ some n) →
    ws'.graph.socket? t = ws.graph.socket? t
  socket : ∀ t socket, ws.graph.socket? t = some socket →
    ∃ ty, ws'.graph.socket? t = some { socket with ty }
  within : ∀ t, ∀ n ∈ nodes, ws.graph.owner? t = some n →
    (ws'.stored t).Within ws.supply.next ws'.supply.next
  apart : ∀ s t v, ∀ m ∈ nodes, ∀ n ∈ nodes, ws.graph.owner? s = some m →
    ws.graph.owner? t = some n → v ∈ (ws'.stored s).leaves → v ∈ (ws'.stored t).leaves → m = n
  copy : ∀ n ∈ nodes, ∀ node, ws.graph.node? n = some node → node.Sound ws.registry →
    node.untyped = none → ∃ shape, ws.shape? n = some shape ∧ CopyOf node shape ws'.stored
  loose : ∀ n ∈ nodes, ∀ node, ws.graph.node? n = some node → node.Sound ws.registry →
    node.untyped ≠ none → node.signature = none → CopyOf node (node.sockets.map .var) ws'.stored

theorem refreshed_nil (ws : Workspace) : Refreshed ws ws [] where
  sameShape := .refl ws
  supply := Nat.le_refl _
  other _ _ := rfl
  socket _ socket hs := ⟨socket.ty, hs⟩
  within _ _ hn := absurd hn List.not_mem_nil
  apart _ _ _ _ hm := absurd hm List.not_mem_nil
  copy _ hn := absurd hn List.not_mem_nil
  loose _ hn := absurd hn List.not_mem_nil

/-- One node gets a fresh instance. -/
theorem freshInstance_refreshed (h : ws.graph.WellFormed) (hn : ws.graph.node? n = some node) :
    Refreshed ws (ws.freshInstance n) [n] := by
  obtain ⟨types, supply, hws, hkeys, hsupply, hwithin, hcopy, hloose⟩ := freshInstance_eq hn
  have hnodup : (types.map Prod.fst).Nodup := hkeys ▸ Graph.sockets_nodup h hn
  have hmem : ∀ t, t ∈ types.map Prod.fst ↔ ws.graph.owner? t = some n := fun t => by
    rw [hkeys, Graph.mem_sockets_iff h hn]
  obtain ⟨hother, hown⟩ := Graph.socket?_foldl_modifySocket Prod.fst
    (fun (e : SocketId × Ty) socket => { socket with ty := e.2 }) ws.graph types
  obtain ⟨houtline, hnodes⟩ := Graph.outline_foldl_modifySocket Prod.fst
    (fun (e : SocketId × Ty) socket => { socket with ty := e.2 }) (fun _ _ => rfl) ws.graph types
  have hstored : ∀ e ∈ types, (ws.freshInstance n).stored e.1 = e.2 := fun e he => by
    obtain ⟨role, socket, hs, _⟩ := Graph.owner?_eq_some_iff.mp
      ((hmem e.1).mp (List.mem_map_of_mem he))
    have hnew : (ws.freshInstance n).graph.socket? e.1 = some { socket with ty := e.2 } := by
      rw [hws]
      exact (hown hnodup e he).trans (by rw [hs, Option.map_some])
    exact stored_eq hnew
  have hsockets : node.sockets.map (ws.freshInstance n).stored = types.map Prod.snd := by
    rw [← hkeys, List.map_map]
    exact List.map_congr_left hstored
  refine ⟨?_, ?_, fun t ht => ?_, fun t socket hs => ?_, fun t m hm ht => ?_, ?_, ?_, ?_⟩
  · rw [hws]
    exact ⟨hnodes, houtline, rfl⟩
  · rw [hws]
    exact hsupply
  · rw [hws]
    exact hother t fun hkey => ht n (List.mem_singleton_self n) ((hmem t).mp hkey)
  · rw [hws]
    by_cases ht : t ∈ types.map Prod.fst
    · obtain ⟨e, he, rfl⟩ := List.mem_map.mp ht
      exact ⟨e.2, (hown hnodup e he).trans (by rw [hs, Option.map_some])⟩
    · exact ⟨socket.ty, (hother t ht).trans hs⟩
  · obtain ⟨e, he, rfl⟩ := List.mem_map.mp ((hmem t).mpr (List.mem_singleton.mp hm ▸ ht))
    rw [hstored e he, hws]
    exact hwithin e he
  · intro s t v m hm k hk _ _ _ _
    rw [List.mem_singleton.mp hm, List.mem_singleton.mp hk]
  · intro m hm node' hnode' hsound htyped
    cases List.mem_singleton.mp hm
    rw [hn] at hnode'
    cases hnode'
    obtain ⟨shape, hshape, htypes⟩ := hcopy hsound htyped
    exact ⟨shape, hshape, htypes _ hsockets⟩
  · intro m hm node' hnode' hsound huntyped hsig
    cases List.mem_singleton.mp hm
    rw [hn] at hnode'
    cases hnode'
    exact hloose hsound huntyped hsig _ hsockets

/-- Fresh instances for further nodes leave those that were made before. -/
theorem Refreshed.cons (h : ws.graph.WellFormed) {rest : List NodeId} (hn : n ∉ rest)
    (h₁ : Refreshed ws ws' [n]) (h₂ : Refreshed ws' ws'' rest) : Refreshed ws ws'' (n :: rest) := by
  have howner : ∀ t, ws'.graph.owner? t = ws.graph.owner? t := h₁.sameShape.owner?
  have hkept : ∀ t, ws.graph.owner? t = some n → ws''.stored t = ws'.stored t := fun t ht => by
    rw [stored, typeOf?, h₂.other t, stored, typeOf?]
    intro m hm hown
    rw [howner, ht] at hown
    cases hown
    exact hn hm
  have hsame : ∀ node, ws.graph.node? n = some node →
      node.sockets.map ws''.stored = node.sockets.map ws'.stored := fun node hnode =>
    List.map_congr_left fun s hs => hkept s ((Graph.mem_sockets_iff h hnode).mp hs)
  have hfirst : ∀ t, ws.graph.owner? t = some n →
      (ws''.stored t).Within ws.supply.next ws'.supply.next := fun t ht => by
    rw [hkept t ht]
    exact h₁.within t n (List.mem_singleton_self n) ht
  have hlater : ∀ t, ∀ m ∈ rest, ws.graph.owner? t = some m →
      (ws''.stored t).Within ws'.supply.next ws''.supply.next := fun t m hm ht =>
    h₂.within t m hm (by rw [howner, ht])
  refine ⟨h₁.sameShape.trans h₂.sameShape, Nat.le_trans h₁.supply h₂.supply, fun t ht => ?_,
    fun t socket hs => ?_, fun t m hm ht => ?_, fun s t v m hm k hk hs ht hvs hvt => ?_,
    fun m hm node hnode hsound htyped => ?_, fun m hm node hnode hsound huntyped hsig => ?_⟩
  · rw [h₂.other t fun m hm => by rw [howner]; exact ht m (List.mem_cons_of_mem n hm),
      h₁.other t fun m hm => by rw [List.mem_singleton.mp hm]; exact ht n List.mem_cons_self]
  · obtain ⟨ty, hty⟩ := h₁.socket t socket hs
    obtain ⟨ty', hty'⟩ := h₂.socket t _ hty
    exact ⟨ty', hty'⟩
  · rcases List.mem_cons.mp hm with rfl | hm
    · exact (hfirst t ht).mono (Nat.le_refl _) h₂.supply
    · exact (hlater t m hm ht).mono h₁.supply (Nat.le_refl _)
  · rcases List.mem_cons.mp hm with rfl | hm' <;> rcases List.mem_cons.mp hk with rfl | hk'
    · rfl
    · exact absurd (hfirst s hs v hvs).2 (Nat.not_lt.mpr (hlater t k hk' ht v hvt).1)
    · exact absurd (hfirst t ht v hvt).2 (Nat.not_lt.mpr (hlater s m hm' hs v hvs).1)
    · exact h₂.apart s t v m hm' k hk' (by rw [howner, hs]) (by rw [howner, ht]) hvs hvt
  · rcases List.mem_cons.mp hm with rfl | hm
    · obtain ⟨shape, hshape, f, hf, hcopy⟩ :=
        h₁.copy m (List.mem_singleton_self m) node hnode hsound htyped
      exact ⟨shape, hshape, f, hf, (hsame node hnode).trans hcopy⟩
    · rw [← h₁.sameShape.shape?]
      exact h₂.copy m hm node (by rw [h₁.sameShape.node?, hnode])
        (by rw [h₁.sameShape.registry]; exact hsound) htyped
  · rcases List.mem_cons.mp hm with rfl | hm
    · obtain ⟨f, hf, hcopy⟩ :=
        h₁.loose m (List.mem_singleton_self m) node hnode hsound huntyped hsig
      exact ⟨f, hf, (hsame node hnode).trans hcopy⟩
    · exact h₂.loose m hm node (by rw [h₁.sameShape.node?, hnode])
        (by rw [h₁.sameShape.registry]; exact hsound) huntyped hsig

theorem foldl_freshInstance_refreshed (h : ws.graph.WellFormed) {nodes : List NodeId}
    (hnodup : nodes.Nodup) (hlive : ∀ n ∈ nodes, ∃ node, ws.graph.node? n = some node) :
    Refreshed ws (nodes.foldl freshInstance ws) nodes := by
  induction nodes generalizing ws with
  | nil => exact refreshed_nil ws
  | cons n rest ih =>
    obtain ⟨hn, hrest⟩ := List.nodup_cons.mp hnodup
    obtain ⟨node, hnode⟩ := hlive n List.mem_cons_self
    have h₁ := freshInstance_refreshed h hnode
    refine h₁.cons h hn (ih (h₁.sameShape.wellFormed.mpr h) hrest fun m hm => ?_)
    rw [h₁.sameShape.node?]
    exact hlive m (List.mem_cons_of_mem n hm)

end Workspace
end BlockGraph
