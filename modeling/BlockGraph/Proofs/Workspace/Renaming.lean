import BlockGraph.Proofs.Unification.Literals
import BlockGraph.Proofs.Workspace.Definitions
import Mathlib.Data.List.Find

/-!
# Edits that give another name

A type that gets another name gets it wherever it stands, and so does a constructor.
No component is rebuilt for that.  What was principal stays principal: the shapes of
nodes get the new name too, and most general solutions carry over to it.

The new name of a type differs from the known types, but literals of unknown types may
have it already.  So the types before cannot be read off the types after, and the
argument goes through the equations between the shapes of nodes instead.
-/

namespace BlockGraph

variable {α : Type}
namespace Workspace

variable {ws ws' : Workspace} {n : NodeId} {node : Node} {F : Node → Node} {old new : String}

/-- The site with another name for a user type. -/
def BindingSite.renameType (old new : String) (site : BindingSite) : BindingSite :=
  { site with type := if site.type = old then new else site.type }

/-- The workspaces differ in names: `F` gives the new names to a node, and the literal `old` is
called `new` in every type.  The names may be the same, if only constructors get other names. -/
structure Renames (F : Node → Node) (old new : String) (ws ws' : Workspace) : Prop where
  outline : ws'.graph.outline = ws.graph.outline
  node : ∀ n, ws'.graph.node? n = (ws.graph.node? n).map F
  socket : ∀ s, ws'.graph.socket? s = (ws.graph.socket? s).map fun socket =>
    { socket with ty := socket.ty.renameLiteral old new }
  supply : ws'.supply = ws.supply
  bare : ∀ node, (F node).bare = node.bare
  untyped : ∀ node, (F node).untyped = node.untyped
  scheme : ∀ node, (F node).scheme? = node.scheme?.map (List.map (TyTerm.renameLiteral old new))
  localVar : ∀ node name, (F node).block = .localVar name ↔ node.block = .localVar name
  site : ∀ n node role name, siteAt? n (F node).block role name =
    (siteAt? n node.block role name).map (BindingSite.renameType old new)
  sound : ∀ node, node.Sound ws.registry → (F node).Sound ws'.registry
  fields : ∀ type t, ws.registry.userType? type = some t → ∀ branch field,
    ws'.registry.fieldType? (if type = old then new else type) branch field =
      (ws.registry.fieldType? type branch field).map (TyTerm.renameLiteral old new)

namespace Renames

theorem output (h : Renames F old new ws ws') (node : Node) : (F node).output = node.output :=
  show (F node).bare.output = node.bare.output by rw [h.bare]

theorem sockets (h : Renames F old new ws ws') (node : Node) : (F node).sockets = node.sockets :=
  show (F node).bare.sockets = node.bare.sockets by rw [h.bare]

theorem exists_node (h : Renames F old new ws ws') {node' : Node}
    (hn : ws'.graph.node? n = some node') :
    ∃ node, ws.graph.node? n = some node ∧ node' = F node := by
  rw [h.node] at hn
  obtain ⟨node, hnode, rfl⟩ := Option.map_eq_some_iff.mp hn
  exact ⟨node, hnode, rfl⟩

theorem stored (h : Renames F old new ws ws') (s : SocketId) :
    ws'.stored s = (ws.stored s).renameLiteral old new := by
  rw [Workspace.stored, typeOf?, h.socket, Workspace.stored, typeOf?]
  cases ws.graph.socket? s <;> rfl

/-! ## Shapes -/

theorem consumerNode? (h : Renames F old new ws ws') (o : SocketId) :
    Workspace.consumerNode? ws'.graph none o =
      (Workspace.consumerNode? ws.graph none o).map fun x => (x.1, x.2.1, F x.2.2) := by
  rw [Workspace.consumerNode?, Workspace.consumerNode?, consumer?, consumer?,
    Graph.peer?_eq_of_outline h.outline]
  cases ws.graph.peer? o with
  | none => rfl
  | some i =>
    rw [Option.bind_some, Option.bind_some, h.socket]
    cases ws.graph.socket? i with
    | none => rfl
    | some socket =>
      rw [Option.map_some, Option.bind_some, Option.bind_some, h.node]
      cases ws.graph.node? socket.node <;> rfl

theorem follow? (h : Renames F old new ws ws') (name : String) (o : SocketId)
    (seen : List SocketId) :
    Workspace.follow? ws'.graph none name o seen =
      (Workspace.follow? ws.graph none name o seen).map (BindingSite.renameType old new) := by
  have hkeys : ∀ o, o ∈ ws'.graph.sockets.keys ↔ o ∈ ws.graph.sockets.keys := fun o => by
    rw [mem_sockets_keys, mem_sockets_keys]
    exact exists_congr fun m => by rw [Graph.owner?_congr h.outline]
  induction hk : (Search.unseen ws.graph.sockets.keys seen).length using Nat.strongRecOn
    generalizing o seen with
  | ind k ih =>
    rw [follow?_eq, follow?_eq, h.consumerNode?]
    simp only [hkeys]
    split
    · next hlive =>
      cases Workspace.consumerNode? ws.graph none o with
      | none => rfl
      | some next =>
        obtain ⟨m, role, node⟩ := next
        simp only [Option.map_some, h.site, h.output]
        cases siteAt? m node.block role name with
        | some site => rfl
        | none => exact ih _ (hk ▸ Search.length_unseen_cons_lt hlive.1 hlive.2) _ _ rfl
    · rfl

theorem bindingSite? (h : Renames F old new ws ws') (n : NodeId) :
    Workspace.bindingSite? ws'.graph none n =
      (Workspace.bindingSite? ws.graph none n).map (BindingSite.renameType old new) := by
  rw [Workspace.bindingSite?, Workspace.bindingSite?, h.node]
  cases ws.graph.node? n with
  | none => rfl
  | some node =>
    simp only [Option.map_some]
    by_cases hlocal : ∃ name, node.block = .localVar name
    · obtain ⟨name, hblock⟩ := hlocal
      rw [hblock, (h.localVar node name).mpr hblock]
      simp only [h.output]
      exact h.follow? name node.output []
    · have hnot : ∀ name, (F node).block ≠ .localVar name := fun name hname =>
        hlocal ⟨name, (h.localVar node name).mp hname⟩
      split
      · next name hname => exact absurd hname (hnot name)
      · split
        · next name hname => exact absurd ⟨name, hname⟩ hlocal
        · rfl

/-- The shape of a node has the new name too, if all that hangs together with it has signatures. -/
theorem shape? (h : Renames F old new ws ws') (hws : ws.Sound)
    (htyped : ∀ m node, ws.graph.Connected n m → ws.graph.node? m = some node →
      node.untyped = none) :
    ws'.shape? n = (ws.shape? n).map (List.map (TyTerm.renameLiteral old new)) := by
  rw [Workspace.shape?, Workspace.shape?, h.bindingSite?, h.node]
  cases hsite : Workspace.bindingSite? ws.graph none n with
  | none =>
    cases ws.graph.node? n with
    | none => rfl
    | some node => exact h.scheme node
  | some site =>
    -- The site lies at a node with a signature, so its type is known.
    obtain ⟨cnode, binders, hc, hcnode, hblock⟩ := bindingSite?_connected hws.graph hsite
    obtain ⟨t, ht⟩ := (hws.nodes site.node cnode hcnode).caseOf site.type binders hblock
      (htyped site.node cnode hc hcnode)
    simp only [Option.map_some, BindingSite.renameType, h.fields site.type t ht]
    cases ws.registry.fieldType? site.type site.branch site.field <;> rfl

end Renames

/-! ## Principal types -/

theorem CopyOf.renameLiteral {shape : List Ty} {τ : Assignment} (h : CopyOf node shape τ) :
    CopyOf node (shape.map (TyTerm.renameLiteral old new))
      fun s => (τ s).renameLiteral old new := by
  obtain ⟨f, hf, hτ⟩ := h
  have hleaves : TyTerm.leavesAll (shape.map (TyTerm.renameLiteral old new)) =
      TyTerm.leavesAll shape := by
    simp only [TyTerm.leavesAll_eq_flatMap, List.flatMap_map, TyTerm.leaves_renameLiteral]
  refine ⟨f, hleaves ▸ hf, ?_⟩
  calc node.sockets.map (fun s => (τ s).renameLiteral old new)
      = (node.sockets.map τ).map (TyTerm.renameLiteral old new) := by rw [List.map_map]; rfl
    _ = (shape.map (TyTerm.map f)).map (TyTerm.renameLiteral old new) := by rw [hτ]
    _ = (shape.map (TyTerm.renameLiteral old new)).map (TyTerm.map f) := by
      rw [List.map_map, List.map_map]
      exact List.map_congr_left fun t _ => TyTerm.renameLiteral_map old new f t

/-- The equations that the links of a component stand for, as a list. -/
theorem exists_link_equations (h : ws.graph.WellFormed) (hn : ws.graph.node? n = some node)
    (τ : Assignment) :
    ∃ es : List Equation,
      (∀ a b, ws.graph.Wired a b → ws.SocketOf (ws.graph.Connected n) a → (τ a, τ b) ∈ es) ∧
      ∀ e ∈ es, ∃ a b, (ws.graph.Wired a b ∧ ws.SocketOf (ws.graph.Connected n) a) ∧
        e = (τ a, τ b) := by
  let nodes := (ws.graph.component [node.output]).nodes
  have hmem : ∀ m, m ∈ nodes ↔ ws.graph.Connected n m := fun m =>
    Graph.mem_component_singleton h (Graph.owner?_output h hn)
  have hends : ∀ a b, ws.graph.Wired a b → ∃ p q, ws.graph.owner? a = some p ∧
      ws.graph.owner? b = some q ∧ ws.graph.Linked p q := by
    intro a b hw
    obtain ⟨p, hp⟩ := h.wired_output a b hw
    obtain ⟨q, _, hq⟩ := h.wired_input a b hw
    have ha := Graph.owner?_eq_some_iff.mpr ⟨_, hp⟩
    have hb := Graph.owner?_eq_some_iff.mpr ⟨_, hq⟩
    exact ⟨p, q, ha, hb, a, b, ha, hb, .inl hw⟩
  refine ⟨(ws.graph.linksInto nodes).map fun l => (τ l.output, τ l.input), fun a b hw hs => ?_,
    fun e he => ?_⟩
  · obtain ⟨m, ha, hm⟩ := hs
    obtain ⟨p, q, hp, hq, hl⟩ := hends a b hw
    rw [ha] at hp
    cases hp
    exact List.mem_map.mpr ⟨⟨a, b⟩, (Graph.mem_linksInto h).mpr
      ⟨hw, q, (hmem q).mpr (hm.tail hl), hq⟩, rfl⟩
  · obtain ⟨⟨a, b⟩, hl, rfl⟩ := List.mem_map.mp he
    obtain ⟨hw, m, hm, hb⟩ := (Graph.mem_linksInto h).mp hl
    obtain ⟨p, q, hp, hq, hl⟩ := hends a b hw
    rw [hb] at hq
    cases hq
    exact ⟨a, b, ⟨hw, p, hp, ((hmem m).mp hm).tail hl.symm⟩, rfl⟩

namespace Renames

theorem wellFormed (h : Renames F old new ws ws') (hws : ws.graph.WellFormed) :
    ws'.graph.WellFormed :=
  (Graph.wellFormed_congr h.outline).mpr hws

theorem socketOf (h : Renames F old new ws ws') {K : NodeId → Prop} :
    ws'.SocketOf K = ws.SocketOf K := by
  funext s
  simp only [SocketOf, Graph.owner?_congr h.outline]

theorem generates (h : Renames F old new ws ws') (hws : ws.Sound) {K : NodeId → Prop}
    {nodes : List NodeId} {ws₁ : Workspace} (hr : Refreshed ws ws₁ nodes)
    (hK : ∀ m, K m → m ∈ nodes)
    (hclosed : ∀ m k, K m → ws.graph.Connected m k → K k)
    (htyped : ∀ m node, K m → ws.graph.node? m = some node → node.untyped = none) :
    Generates (fun s => (ws₁.stored s).renameLiteral old new) (ws'.SocketOf K)
      fun A => ∀ m node', K m → ws'.graph.node? m = some node' →
        (∃ scheme, node'.scheme? = some scheme ∧ node'.InstanceOf scheme A) ∧
          ws'.InScope m node' A := by
  refine generates_of_copies (h.wellFormed hws.graph) (fun m node' hnode' => ?_)
    (fun m node' hm hnode' => ?_) (fun s t v m k hm hk hs ht hvs hvt => ?_)
    fun m node' hm hnode' => ?_
  · obtain ⟨node, hnode, rfl⟩ := h.exists_node hnode'
    exact h.sound node (hws.nodes m node hnode)
  · obtain ⟨node, hnode, rfl⟩ := h.exists_node hnode'
    rw [h.untyped]
    exact htyped m node hm hnode
  · rw [Graph.owner?_congr h.outline] at hs ht
    rw [TyTerm.leaves_renameLiteral] at hvs hvt
    exact hr.apart s t v m (hK m hm) k (hK k hk) hs ht hvs hvt
  · obtain ⟨node, hnode, rfl⟩ := h.exists_node hnode'
    obtain ⟨shape, hshape, f, hf, hcopy⟩ :=
      hr.copy m (hK m hm) node hnode (hws.nodes m node hnode) (htyped m node hm hnode)
    refine ⟨shape.map (TyTerm.renameLiteral old new), ?_, CopyOf.renameLiteral ⟨f, hf, ?_⟩⟩
    · rw [h.shape? hws fun k node hk => htyped k node (hclosed m k hm hk), hshape]
      rfl
    · rw [h.sockets]
      exact hcopy

theorem principal (h : Renames F old new ws ws') (hws : ws.Sound)
    (hn : ws.graph.node? n = some node) (hc : ws.Coherent n) :
    Generates ws'.stored (ws.SocketOf (ws.graph.Connected n))
      (ws'.Typing (ws.graph.Connected n)) := by
  let K := ws.graph.Connected n
  have hK : ∀ m, K m → m ∈ (ws.graph.component [node.output]).nodes := fun m hm =>
    (Graph.mem_component_singleton hws.graph (Graph.owner?_output hws.graph hn)).mpr hm
  have hr := refreshed_component hws.graph [node.output]
  have hgen := hr.generates hws.graph hK hws.nodes hc.typed
  have hgen' := h.generates hws hr hK (fun m k hm hk => hm.trans hk) hc.typed
  rw [h.socketOf] at hgen'
  obtain ⟨es, hlinks, hes⟩ := exists_link_equations hws.graph hn
    (Workspace.stored ((ws.graph.component [node.output]).nodes.foldl freshInstance ws))
  have htyping : ∀ A, ws'.Typing K A ↔ _ := fun A => typing_iff
  simp only [h.socketOf, Graph.wired_congr h.outline] at htyping
  refine ((hgen.renameLiteral hgen' ?_ hes
    (hc.principal.congr_set fun A => typing_iff.symm)).congr_set
    htyping).congr_family fun s _ => h.stored s
  rintro a b ⟨hw, m, ha, hm⟩
  obtain ⟨q, _, hq⟩ := hws.graph.wired_input a b hw
  have hb := Graph.owner?_eq_some_iff.mpr ⟨_, hq⟩
  exact ⟨⟨m, ha, hm⟩, ⟨q, hb, hm.tail ⟨a, b, ha, hb, .inl hw⟩⟩, hlinks a b hw ⟨m, ha, hm⟩⟩

/-! ## Sound and settled workspaces -/

theorem untyped? (h : Renames F old new ws ws') (s : SocketId) :
    ws'.untyped? s = ws.untyped? s := by
  rw [Workspace.untyped?, Workspace.untyped?, Graph.owner?_congr h.outline]
  cases ws.graph.owner? s with
  | none => rfl
  | some m =>
    rw [Option.bind_some, Option.bind_some, h.node]
    cases ws.graph.node? m with
    | none => rfl
    | some node => exact h.untyped node

theorem settledState (h : Renames F old new ws ws') (s : SocketId) :
    ws'.settledState s = ws.settledState s := by
  rw [Workspace.settledState, Workspace.settledState, h.untyped?,
    Graph.peer?_eq_of_outline h.outline]

theorem exists_socket (h : Renames F old new ws ws') {s : SocketId} {socket' : Socket}
    (hs : ws'.graph.socket? s = some socket') : ∃ socket, ws.graph.socket? s = some socket ∧
      socket' = { socket with ty := socket.ty.renameLiteral old new } := by
  rw [h.socket] at hs
  obtain ⟨socket, hsocket, rfl⟩ := Option.map_eq_some_iff.mp hs
  exact ⟨socket, hsocket, rfl⟩

theorem sound_workspace (h : Renames F old new ws ws') (hws : ws.Sound) : ws'.Sound := by
  refine ⟨h.wellFormed hws.graph, fun n node' hn => ?_, fun s socket' hs v hv => ?_,
    fun s t socket socket' v hs ht hvs hvt => ?_⟩
  · obtain ⟨node, hnode, rfl⟩ := h.exists_node hn
    exact h.sound node (hws.nodes n node hnode)
  · obtain ⟨socket, hsocket, rfl⟩ := h.exists_socket hs
    rw [TyTerm.leaves_renameLiteral] at hv
    rw [h.supply]
    exact hws.below s socket hsocket v hv
  · obtain ⟨socket, hsocket, rfl⟩ := h.exists_socket hs
    obtain ⟨socket', hsocket', rfl⟩ := h.exists_socket ht
    rw [TyTerm.leaves_renameLiteral] at hvs hvt
    rw [Graph.connected_congr h.outline]
    exact hws.apart s t socket socket' v hsocket hsocket' hvs hvt

theorem coherent (h : Renames F old new ws ws') (hws : ws.Sound)
    (hn : ws.graph.node? n = some node) (hc : ws.Coherent n) : ws'.Coherent n := by
  refine ⟨fun m node' hm hnode' => ?_, ?_, fun s socket' hs hm => ?_, ?_⟩
  · obtain ⟨node, hnode, rfl⟩ := h.exists_node hnode'
    rw [Graph.connected_congr h.outline] at hm
    rw [h.untyped]
    exact hc.typed m node hm hnode
  · rw [Graph.connected_congr h.outline, Graph.feeds_congr h.outline]
    exact hc.ranked
  · obtain ⟨socket, hsocket, rfl⟩ := h.exists_socket hs
    rw [Graph.connected_congr h.outline] at hm
    rw [h.settledState]
    exact hc.states s socket hsocket hm
  · rw [Graph.connected_congr h.outline, h.socketOf]
    exact h.principal hws hn hc

theorem faulty (h : Renames F old new ws ws') (hf : ws.Faulty n) : ws'.Faulty n := by
  obtain ⟨s, socket, e, hs, hc, hstate, hfault⟩ := hf
  refine ⟨s, { socket with ty := socket.ty.renameLiteral old new }, e,
    by rw [h.socket, hs, Option.map_some], ?_, hstate, ?_⟩
  · rw [Graph.connected_congr h.outline]
    exact hc
  · rw [h.untyped?, Graph.peer?_eq_of_outline h.outline]
    exact hfault

theorem settled (h : Renames F old new ws ws') (hws : ws.Sound) (hsettled : ws.Settled) :
    ws'.Settled := by
  intro n node' hn
  obtain ⟨node, hnode, rfl⟩ := h.exists_node hn
  exact (hsettled n node hnode).imp (h.coherent hws hnode) h.faulty

end Renames
end Workspace

/-! ## Names in the registry -/

theorem Naming.firstFree_not_taken {taken : String → Bool} {attempts : Nat} {name found : String}
    (h : firstFree taken attempts name = some found) : taken found = false := by
  induction attempts generalizing name with
  | zero => cases h
  | succ attempts ih =>
    rw [firstFree] at h
    split at h
    · exact ih h
    · next hfree =>
      cases h
      simpa using hfree

theorem Naming.propose_not_taken {candidate placeholder name : String} {taken : String → Bool}
    (h : propose candidate placeholder taken = .ok name) : taken name = false := by
  rw [propose] at h
  split at h
  · next found hfound =>
    cases h
    exact firstFree_not_taken hfound
  · cases h

namespace Registry

variable {r r' : Registry} {old new candidate type : String}

theorem userType?_rename (old : String) (hfree : r.userType? new = none) (hne : type ≠ new) :
    (r.modifyType old fun t => { t with name := new }).userType?
        (if type = old then new else type) =
      (r.userType? type).map fun t => if t.name = old then { t with name := new } else t := by
  have hnames : ∀ t ∈ r.types, t.name ≠ new := by
    simpa [userType?, List.find?_eq_none] using hfree
  rw [modifyType, userType?, userType?, List.find?_map]
  congr 1
  refine List.find?_congr fun t ht => ?_
  have ht := hnames t ht
  by_cases htold : t.name = old <;> by_cases htype : type = old
  · simp [htold, htype]
  · simp [htold, htype, Ne.symm hne, Ne.symm htype]
  · simp [htold, htype, ht]
  · simp [htold, htype]

/-- Fields that are set get the new name, and the others stay unset. -/
theorem join_fields_map (f : Ty → Ty) (fields : List (Option Ty)) (k : Nat) :
    ((fields.map fun field => field.bind fun ty => some (f ty))[k]?).join =
      (fields[k]?.join).map f := by
  rw [List.getElem?_map]
  cases fields[k]? with
  | none => rfl
  | some field => cases field <;> rfl

theorem renameType_cases (h : renameType old candidate r = .ok new r') :
    (new = old ∧ r' = r) ∨ new ≠ old ∧ ∀ type t, r.userType? type = some t →
      (∃ t', r'.userType? (if type = old then new else type) = some t') ∧
      ∀ variant field, r'.fieldType? (if type = old then new else type) variant field =
        (r.fieldType? type variant field).map (TyTerm.renameLiteral old new) := by
  simp only [renameType, editType] at h
  split at h
  · cases h
  next t hold =>
  split at h
  · cases h
    exact .inl ⟨rfl, rfl⟩
  split at h
  · cases h
  next proposed hpropose =>
  cases h
  have hfree : r.userType? new = none := by
    have hknown := Naming.propose_not_taken hpropose
    simp only [isKnownType, Bool.or_eq_false_iff, Option.isSome_eq_false_iff,
      Option.isNone_iff_eq_none] at hknown
    exact hknown.2
  refine .inr ⟨?_, fun type u hu => ?_⟩
  · rintro rfl
    rw [hold] at hfree
    cases hfree
  have hne : type ≠ new := by
    rintro rfl
    rw [hu] at hfree
    cases hfree
  have hrename := userType?_rename old hfree hne
  rw [hu, Option.map_some] at hrename
  have hfound := userType?_mapFields (r.modifyType old fun t => { t with name := new })
    (fun ty => some (ty.renameLiteral old new)) (if type = old then new else type)
  rw [hrename, Option.map_some] at hfound
  refine ⟨⟨_, hfound⟩, fun variant field => ?_⟩
  rw [fieldType?, fieldType?, hu, Option.bind_some]
  refine (congrArg (fun found : Option UserType => found.bind _) hfound).trans ?_
  rw [Option.bind_some]
  have hvariants : (if u.name = old then { u with name := new } else u).variants = u.variants := by
    split <;> rfl
  simp only [hvariants, List.getElem?_map]
  cases u.variants[variant]? with
  | none => rfl
  | some v =>
    rw [Option.map_some, Option.bind_some, Option.bind_some]
    exact join_fields_map (TyTerm.renameLiteral old new) v.fields field

theorem renameCtor_fields (h : renameCtor old candidate r = .ok new r') {t : UserType}
    (ht : r.userType? type = some t) :
    (∃ t', r'.userType? type = some t') ∧ r'.fieldType? type = r.fieldType? type := by
  rw [renameCtor] at h
  split at h
  · cases h
  next owner k _ =>
  split at h
  · cases h
    exact ⟨⟨t, ht⟩, rfl⟩
  split at h
  · cases h
  cases h
  have hfound := userType?_modifyType r owner.name type
    (f := fun t => { t with variants := t.variants.modify k fun v => { v with ctor := new } })
    fun _ => rfl
  rw [ht, Option.map_some] at hfound
  refine ⟨⟨_, hfound⟩, funext fun variant => funext fun field => ?_⟩
  rw [fieldType?, fieldType?, hfound, ht, Option.bind_some, Option.bind_some]
  split
  · rw [List.getElem?_modify]
    cases t.variants[variant]? with
    | none => rfl
    | some v => split <;> rfl
  · rfl

end Registry

/-! ## Giving another name -/

namespace Node

variable {node : Node} {old new : String}

def renameCtor (old new : String) (node : Node) : Node :=
  { node with block := node.block.renameCtor old new }

theorem scheme?_renameType (node : Node) : (node.renameType old new).scheme? =
    node.scheme?.map (List.map (TyTerm.renameLiteral old new)) := by
  obtain ⟨block, signature, untyped, inputs, output⟩ := node
  cases signature with
  | some t => simp [scheme?, renameType, TyTerm.uncurry_renameLiteral]
  | none => cases block <;> simp [scheme?, renameType, Block.renameType]

theorem scheme?_renameCtor (node : Node) : (node.renameCtor old new).scheme? = node.scheme? := by
  obtain ⟨block, signature, untyped, inputs, output⟩ := node
  cases signature <;> cases block <;> rfl

theorem Sound.renameType {r r' : Registry} (h : node.Sound r)
    (hknown : ∀ type t, r.userType? type = some t →
      ∃ t', r'.userType? (if type = old then new else type) = some t') :
    (node.renameType old new).Sound r' := by
  refine ⟨fun huntyped => ?_, fun name hname => ?_, fun type binders hblock huntyped => ?_⟩
  · obtain ⟨scheme, hscheme, hlen⟩ := h.arity huntyped
    exact ⟨_, by rw [scheme?_renameType, hscheme, Option.map_some],
      by rw [List.length_map, hlen]; rfl⟩
  · have hblock : node.block = .localVar name := by
      cases hb : node.block <;> simp_all [Node.renameType, Block.renameType]
    obtain ⟨huntyped, v, hv⟩ := h.localVar name hblock
    exact ⟨huntyped, v, by simp [Node.renameType, hv]⟩
  · obtain ⟨type', hblock', rfl⟩ : ∃ type', node.block = .caseOf type' binders ∧
        (if type' = old then new else type') = type := by
      cases hb : node.block <;> simp_all [Node.renameType, Block.renameType]
    obtain ⟨t, ht⟩ := h.caseOf type' binders hblock' huntyped
    exact hknown type' t ht

theorem Sound.renameCtor {r r' : Registry} (h : node.Sound r)
    (hknown : ∀ type t, r.userType? type = some t → ∃ t', r'.userType? type = some t') :
    (node.renameCtor old new).Sound r' := by
  refine ⟨fun huntyped => ?_, fun name hname => h.localVar name ?_,
    fun type binders hblock huntyped => ?_⟩
  · rw [scheme?_renameCtor]
    exact h.arity huntyped
  · cases hb : node.block <;> simp_all [Node.renameCtor, Block.renameCtor]
  · have hblock' : node.block = .caseOf type binders := by
      cases hb : node.block <;> simp_all [Node.renameCtor, Block.renameCtor]
    obtain ⟨t, ht⟩ := h.caseOf type binders hblock' huntyped
    exact hknown type t ht

end Node

/-! ## The new name in nodes and sockets -/

/-- The values of the given numbers replaced. -/
def Slots.mapAt {α : Type} (s : Slots α) (f : α → α) (ks : List Nat) : Slots α :=
  { s with entries := s.entries.map fun e => if e.1 ∈ ks then (e.1, f e.2) else e }

theorem Slots.mapAt_nil (s : Slots α) (f : α → α) : s.mapAt f [] = s := by
  simp [mapAt]

/-- A function that may be applied again without a difference replaces the values one after
another, whether or not a number is there twice. -/
theorem Slots.modify_mapAt {f : α → α} (hf : ∀ a, f (f a) = f a) (s : Slots α) (k : Nat)
    (ks : List Nat) : (s.modify k f).mapAt f ks = s.mapAt f (k :: ks) := by
  rw [mapAt, mapAt, modify, List.map_map]
  refine congrArg (Slots.mk · s.numbers) (List.map_congr_left fun e _ => ?_)
  by_cases hk : e.1 = k
  · simp [hk, hf]
  · simp [hk]

theorem Slots.mapAt_eq_map {s : Slots α} {ks : List Nat} (h : ∀ k ∈ s.keys, k ∈ ks) (f : α → α) :
    s.mapAt f ks = s.map f :=
  congrArg (Slots.mk · s.numbers)
    (List.map_congr_left fun _ he => if_pos (h _ (List.mem_map_of_mem he)))

theorem Node.renameType_again (old new : String) (node : Node) :
    (node.renameType old new).renameType old new = node.renameType old new := by
  have hname : ∀ type : String,
      (if (if type = old then new else type) = old then new else if type = old then new else type) =
        if type = old then new else type := fun type => by grind
  have hty := TyTerm.renameLiteral_again (ν := TyVar) old new
  obtain ⟨block, signature, untyped, inputs, output⟩ := node
  cases block <;> cases signature <;> simp [renameType, Block.renameType, hname, hty]

namespace Graph

variable {g : Graph} {old new : String}

/-- The graph in which a type has got another name in all nodes and sockets. -/
def renamed (g : Graph) (old new : String) : Graph :=
  { g with
    nodes := g.nodes.map (Node.renameType old new)
    sockets := g.sockets.map (Socket.renameType old new) }

/-- The nodes are found one after another, and their sockets are those that they had before. -/
theorem renameInNodes_eq (old new : String) {nodes : List NodeId}
    (hnodes : ∀ n ∈ nodes, ∃ node, g.node? n = some node) :
    ∃ sockets, renameInNodes old new nodes g =
        .ok sockets { g with nodes := g.nodes.mapAt (Node.renameType old new) nodes } ∧
      ∀ s, s ∈ sockets ↔ ∃ n ∈ nodes, ∃ l, (g.node? n).map Node.sockets = some l ∧ s ∈ l := by
  induction nodes generalizing g with
  | nil => exact ⟨[], by rw [Slots.mapAt_nil]; rfl, by simp⟩
  | cons n rest ih =>
    obtain ⟨node, hn⟩ := hnodes n List.mem_cons_self
    let g₁ := g.modifyNode n (Node.renameType old new)
    have hsame : ∀ m, (g₁.node? m).map Node.sockets = (g.node? m).map Node.sockets := fun m => by
      rw [node?_modifyNode hn]
      split
      · next hm => rw [hm, hn]; rfl
      · rfl
    obtain ⟨sockets, hrest, hmem⟩ := ih (g := g₁) fun m hm => by
      rw [node?_modifyNode hn]
      split
      · exact ⟨_, rfl⟩
      · exact hnodes m (List.mem_cons_of_mem n hm)
    refine ⟨node.sockets ++ sockets, ?_, fun s => ?_⟩
    · rw [← Slots.modify_mapAt (Node.renameType_again old new)]
      simp only [renameInNodes, hn]
      rw [hrest]
      rfl
    · rw [List.mem_append, hmem]
      simp [hsame, hn]

theorem renameInSockets_eq (old new : String) {sockets : List SocketId}
    (hsockets : ∀ s ∈ sockets, ∃ socket, g.socket? s = some socket) :
    renameInSockets old new sockets g =
      .ok () { g with sockets := g.sockets.mapAt (Socket.renameType old new) sockets } := by
  induction sockets generalizing g with
  | nil => rw [Slots.mapAt_nil]; rfl
  | cons s rest ih =>
    obtain ⟨socket, hs⟩ := hsockets s List.mem_cons_self
    have hsame : ∀ socket : Socket, (socket.renameType old new).renameType old new =
        socket.renameType old new := fun socket => by
      simp [Socket.renameType, TyTerm.renameLiteral_again]
    have hrest := ih (g := g.modifySocket s (Socket.renameType old new)) fun t ht => by
      obtain ⟨socket', ht⟩ := hsockets t (List.mem_cons_of_mem s ht)
      rw [socket?, modifySocket, Slots.get?_modify, show g.sockets.get? t = some socket' from ht]
      split <;> exact ⟨_, rfl⟩
    rw [← Slots.modify_mapAt hsame]
    simp only [renameInSockets, hs]
    rw [hrest]
    rfl

/-- In a well-formed graph the nodes list exactly the sockets that are there.  So no lookup fails,
and the new name gets everywhere. -/
theorem renameType_eq (h : g.WellFormed) (old new : String) :
    renameType old new g = .ok () (g.renamed old new) := by
  have hlive : ∀ n ∈ g.nodeIds, ∃ node, g.node? n = some node := fun n hn => mem_nodeIds.mp hn
  obtain ⟨sockets, hnodes, hmem⟩ := renameInNodes_eq old new hlive
  have hlisted : ∀ s, s ∈ sockets ↔ ∃ socket, g.socket? s = some socket := by
    intro s
    rw [hmem]
    constructor
    · rintro ⟨n, _, l, hl, hs⟩
      obtain ⟨node, hn, rfl⟩ := Option.map_eq_some_iff.mp hl
      obtain ⟨_, socket, hs, _⟩ := owner?_eq_some_iff.mp ((mem_sockets_iff h hn).mp hs)
      exact ⟨socket, hs⟩
    · rintro ⟨socket, hs⟩
      have hat : g.At s socket.node socket.role := ⟨socket, hs, rfl, rfl⟩
      obtain ⟨node, hn⟩ := hat.node? h
      refine ⟨_, mem_nodeIds.mpr ⟨node, hn⟩, node.sockets, by rw [hn]; rfl, ?_⟩
      exact (mem_sockets_iff h hn).mpr (owner?_eq_some_iff.mpr ⟨_, hat⟩)
  have hall : ∀ n ∈ g.nodes.keys, n ∈ g.nodeIds := fun _ hn => hn
  rw [Slots.mapAt_eq_map hall] at hnodes
  simp only [renameType, hnodes]
  have hsockets := renameInSockets_eq old new
    (g := { g with nodes := g.nodes.map (Node.renameType old new) }) fun s hs => (hlisted s).mp hs
  rwa [Slots.mapAt_eq_map fun k hk => (hlisted k).mpr (Slots.mem_keys_iff.mp hk)] at hsockets

theorem node?_renamed (g : Graph) (old new : String) (n : NodeId) :
    (g.renamed old new).node? n = (g.node? n).map (Node.renameType old new) :=
  Slots.get?_map g.nodes (Node.renameType old new) n

theorem exists_node_renamed {n : NodeId} {node : Node}
    (hn : (g.renamed old new).node? n = some node) :
    ∃ node₀, g.node? n = some node₀ ∧ node₀.renameType old new = node :=
  Option.map_eq_some_iff.mp ((g.node?_renamed old new n).symm.trans hn)

theorem outline_renamed (g : Graph) (old new : String) :
    (g.renamed old new).outline = g.outline := by
  have hnodes := Slots.map_map_of_eq g.nodes (f := Node.renameType old new) (g := Node.bare)
    fun _ => rfl
  have hsockets := Slots.map_map_of_eq g.sockets (f := Socket.renameType old new)
    (g := Socket.bare) fun _ => rfl
  exact congrArg₂ (fun nodes sockets => Graph.mk nodes sockets g.links) hnodes hsockets

theorem node?_renameCtor (g : Graph) (old new : String) (n : NodeId) :
    (g.renameCtor old new).node? n = (g.node? n).map (Node.renameCtor old new) :=
  Slots.get?_map g.nodes (Node.renameCtor old new) n

theorem exists_node_renameCtor {n : NodeId} {node : Node}
    (hn : (g.renameCtor old new).node? n = some node) :
    ∃ node₀, g.node? n = some node₀ ∧ node₀.renameCtor old new = node :=
  Option.map_eq_some_iff.mp ((g.node?_renameCtor old new n).symm.trans hn)

end Graph

namespace Workspace

variable {ws ws' : Workspace} {old new candidate : String}

theorem renames_renameType {registry : Registry}
    (hknown : ∀ type t, ws.registry.userType? type = some t →
      (∃ t', registry.userType? (if type = old then new else type) = some t') ∧
      ∀ variant field, registry.fieldType? (if type = old then new else type) variant field =
        (ws.registry.fieldType? type variant field).map (TyTerm.renameLiteral old new)) :
    Renames (Node.renameType old new) old new ws
      { ws with registry, graph := ws.graph.renamed old new } where
  outline := ws.graph.outline_renamed old new
  node := ws.graph.node?_renamed old new
  socket s := Slots.get?_map ws.graph.sockets _ s
  supply := rfl
  bare _ := rfl
  untyped _ := rfl
  scheme := Node.scheme?_renameType
  localVar node name := by
    cases hb : node.block <;> simp [Node.renameType, Block.renameType, hb]
  site n node role name := by
    obtain ⟨block, signature, untyped, inputs, output⟩ := node
    cases block <;> try rfl
    next type binders =>
      cases role with
      | output => rfl
      | input k =>
        cases k with
        | zero => rfl
        | succ branch =>
          simp only [Node.renameType, Block.renameType, siteAt?, Option.map_map]
          rfl
  sound node h := h.renameType fun type t ht => (hknown type t ht).1
  fields type t ht := (hknown type t ht).2

theorem ite_name_self (type name : String) : (if type = name then name else type) = type := by
  split
  · next h => exact h.symm
  · rfl

theorem renames_renameCtor (old new : String) {registry : Registry}
    (hknown : ∀ type t, ws.registry.userType? type = some t →
      (∃ t', registry.userType? type = some t') ∧
      registry.fieldType? type = ws.registry.fieldType? type) :
    Renames (Node.renameCtor old new) new new ws
      { ws with registry, graph := ws.graph.renameCtor old new } where
  outline := by
    have hnodes := Slots.map_map_of_eq ws.graph.nodes (f := Node.renameCtor old new)
      (g := Node.bare) fun _ => rfl
    exact congrArg (fun nodes => Graph.mk nodes (ws.graph.sockets.map Socket.bare) ws.graph.links)
      hnodes
  node := ws.graph.node?_renameCtor old new
  socket s := by
    simp only [TyTerm.renameLiteral_self]
    exact Option.map_id.symm ▸ rfl
  supply := rfl
  bare _ := rfl
  untyped _ := rfl
  scheme node := by
    have hid : List.map (TyTerm.renameLiteral (ν := TyVar) new new) = id :=
      funext fun ts => (List.map_congr_left fun t _ => TyTerm.renameLiteral_self new t).trans
        (List.map_id _)
    rw [Node.scheme?_renameCtor, hid, Option.map_id]
    rfl
  localVar node name := by
    cases hb : node.block <;> simp [Node.renameCtor, Block.renameCtor, hb]
  site n node role name := by
    have hid : BindingSite.renameType new new = id := funext fun site => by
      rw [BindingSite.renameType, ite_name_self]
      rfl
    rw [hid, Option.map_id]
    cases hb : node.block <;> simp only [Node.renameCtor, Block.renameCtor, hb] <;> rfl
  sound node h := h.renameCtor fun type t ht => (hknown type t ht).1
  fields type t ht variant field := by
    have hid : TyTerm.renameLiteral (ν := TyVar) new new = id :=
      funext (TyTerm.renameLiteral_self new)
    rw [ite_name_self, (hknown type t ht).2, hid, Option.map_id]
    rfl

theorem renameType_ok (hgraph : ws.graph.WellFormed)
    (hok : renameType old candidate ws = .ok new ws') :
    (new = old ∧ ws' = ws) ∨
      ∃ registry, new ≠ old ∧ Registry.renameType old candidate ws.registry = .ok new registry ∧
        Renames (Node.renameType old new) old new ws
          { ws with registry, graph := ws.graph.renamed old new } ∧
        ws' = { ws with registry, graph := ws.graph.renamed old new }.retryUntyped.2 := by
  unfold renameType at hok
  split at hok
  · cases hok
  next given ws₁ hrun =>
  obtain ⟨registry, hrename, rfl⟩ := onRegistry_ok hrun
  rcases Registry.renameType_cases hrename with ⟨rfl, rfl⟩ | ⟨hne, hknown⟩
  · rw [if_pos rfl] at hok
    cases hok
    exact .inl ⟨rfl, rfl⟩
  · rw [if_neg hne, Graph.renameType_eq hgraph] at hok
    cases hok
    exact .inr ⟨registry, hne, hrename, renames_renameType hknown, rfl⟩

theorem renameCtor_eq (hok : renameCtor old candidate ws = .ok new ws') :
    ∃ registry, Registry.renameCtor old candidate ws.registry = .ok new registry ∧
      ws' = { ws with registry, graph := ws.graph.renameCtor old new } := by
  unfold renameCtor at hok
  split at hok
  · cases hok
  next given ws₁ hrun =>
  obtain ⟨registry, hrename, rfl⟩ := onRegistry_ok hrun
  cases hok
  exact ⟨registry, hrename, rfl⟩

/-- A type and a workspace around it keep their invariants when the type gets another name. -/
theorem renameType_kept (h : ws.Sound) (hok : renameType old candidate ws = .ok new ws') :
    ws'.Sound ∧ (ws.Settled → ws'.Settled) := by
  rcases renameType_ok h.graph hok with ⟨_, rfl⟩ | ⟨registry, _, _, hr, rfl⟩
  · exact ⟨h, id⟩
  · have hsound := hr.sound_workspace h
    have hretry := retryUntyped_rebuiltFrom hsound
    exact ⟨hretry.sound hsound, fun hsettled => hretry.settled hsound (hr.settled h hsettled)⟩

theorem renameCtor_ok (hok : renameCtor old candidate ws = .ok new ws') :
    Renames (Node.renameCtor old new) new new ws ws' := by
  obtain ⟨registry, hrename, rfl⟩ := renameCtor_eq hok
  exact renames_renameCtor old new fun type t ht => Registry.renameCtor_fields hrename ht

theorem renameCtor_kept (h : ws.Sound) (hok : renameCtor old candidate ws = .ok new ws') :
    ws'.Sound ∧ (ws.Settled → ws'.Settled) :=
  ⟨(renameCtor_ok hok).sound_workspace h, (renameCtor_ok hok).settled h⟩

end Workspace
end BlockGraph
