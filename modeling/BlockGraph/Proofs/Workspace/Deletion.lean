import BlockGraph.Proofs.Registry.Redefinition
import BlockGraph.Proofs.Workspace.GivenNames
import BlockGraph.Proofs.Workspace.OnlyRenames
import BlockGraph.Proofs.Workspace.Resizing
import BlockGraph.Proofs.Workspace.Sources

/-!
# What is left of a type

When a type is deleted, its name stands for no type any more and is taken out of the fields of all
types.  A registry that has forgotten a name like this gives no signature with the name in it
(`Forgotten.derive`).  The names in the types of sockets come from signatures and fields, so
none of them has the name either, however far the socket is from the nodes that depended on the
type.

These nodes have no signature now.  They are all listed, in the order of their numbers, because
the numbers of nodes are in ascending order at all times.
-/

namespace BlockGraph

theorem TyTerm.mem_literalNames_of_uncurry {ν : Type} {t u : TyTerm ν} {name : String}
    (hu : u ∈ t.uncurry.1 ++ [t.uncurry.2]) (hname : name ∈ u.literalNames) :
    name ∈ t.literalNames := by
  rw [← t.curried_uncurry, mem_literalNames_curried]
  rcases List.mem_append.mp hu with hu | hu
  · exact .inl ⟨u, hu, hname⟩
  · exact .inr (List.mem_singleton.mp hu ▸ hname)

/-- A node that depends on a type: a literal or a function that mentions it, one of its
constructors, or a distinction of its cases. -/
inductive Block.Depends (r : Registry) (name : String) : Block → Prop
  | literal {ty : Ty} {value : String} (h : name ∈ ty.literalNames) :
      Depends r name (.literal ty value)
  | function {applied : String} {ty : Ty} (hty : r.function? applied = some ty)
      (h : name ∈ ty.literalNames) : Depends r name (.function applied)
  | ctor {t : UserType} {v : Variant} (ht : r.userType? name = some t) (hv : v ∈ t.variants) :
      Depends r name (.ctor v.ctor)
  | caseOf {binders : List (List String)} : Depends r name (.caseOf name binders)

/-- A name that stands for no type and is in no field. -/
structure Registry.Forgotten (r : Registry) (name : String) : Prop where
  unknown : r.isKnownType name = false
  fields : ∀ t ∈ r.types, ∀ v ∈ t.variants, ∀ ty, some ty ∈ v.fields → name ∉ ty.literalNames

namespace Registry

variable {r r' : Registry} {t : UserType} {name : String}

theorem deleteType_forgotten (h : r.WellNamed) (hok : deleteType name r = .ok t r') :
    r'.Forgotten name := by
  obtain ⟨ht, rfl⟩ := deleteType_ok hok
  constructor
  · have hunknown := isKnownType_without h (List.mem_of_find?_eq_some ht)
    rw [userType?_name ht] at hunknown
    rw [isKnownType, userType?_mapFields, Option.isSome_map]
    exact hunknown
  · intro u' hu' v' hv' ty hty
    obtain ⟨u, _, rfl⟩ := List.mem_map.mp hu'
    obtain ⟨v, _, rfl⟩ := List.mem_map.mp hv'
    obtain ⟨field, _, hfield⟩ := List.mem_map.mp hty
    obtain ⟨given, _, hkept⟩ := Option.bind_eq_some_iff.mp hfield
    split at hkept
    · cases hkept
    · next hmentions =>
      cases hkept
      exact TyTerm.mentions_eq_false_iff.mp (Bool.eq_false_iff.mpr hmentions)

theorem deleteType_derive {block : Block} (h : r.WellNamed) (hok : deleteType name r = .ok t r')
    (hdep : block.dependsOn r name = true) (s : Supply) :
    ∃ fault, block.derive r' s = .error fault := by
  obtain ⟨ht, rfl⟩ := deleteType_ok hok
  obtain rfl := userType?_name ht
  cases hderive : block.derive _ s with
  | error fault => exact ⟨fault, rfl⟩
  | ok x =>
    -- Whether there is a signature does not depend on what stands in the fields.
    have hknown : block.Known (r.without t.name) := by
      have hknown' := Block.derive_eq_ok_iff.mp ⟨x, hderive⟩
      refine hknown'.of_le rfl (fun type htype => ?_) fun c _ hc => ?_
      · rwa [← userType?_isSome_iff, userType?_mapFields, Option.isSome_map, userType?_isSome_iff]
          at htype
      · rw [variant?_eq_none_iff_not_mem] at hc ⊢
        rwa [WellNamed.ctorNames_mapFields]
    obtain ⟨_, hfound⟩ := Block.derive_eq_ok_iff (s := s).mpr hknown
    obtain ⟨_, hmissing⟩ := Block.derive_without h (List.mem_of_find?_eq_some ht) hdep s
    cases hmissing.symm.trans hfound

namespace Forgotten

variable {block : Block} {ty : Ty} {s s' : Supply}

theorem not_mem (h : r.Forgotten name) (hty : ∀ type ∈ ty.literalNames, r.isKnownType type = true) :
    name ∉ ty.literalNames := by
  intro hname
  have hknown := hty name hname
  rw [h.unknown] at hknown
  cases hknown

theorem ne_of_mem (h : r.Forgotten name) {u : UserType} (hu : u ∈ r.types) : name ≠ u.name := by
  rintro rfl
  exact (not_known h.unknown).2 (List.mem_map_of_mem hu)

theorem fieldType? (h : r.Forgotten name) {type : String} {variant field : Nat}
    (hfield : r.fieldType? type variant field = some ty) : name ∉ ty.literalNames := by
  obtain ⟨u, hu, hfield⟩ := Option.bind_eq_some_iff.mp hfield
  obtain ⟨v, hv, hfield⟩ := Option.bind_eq_some_iff.mp hfield
  exact h.fields u (List.mem_of_find?_eq_some hu) v (List.mem_of_getElem? hv) ty
    (List.mem_of_getElem? (Option.join_eq_some_iff.mp hfield))

theorem literal (h : r.Forgotten name) {value : String} {x : Option Ty × Supply}
    (hderive : (Block.literal ty value).derive r s = .ok x) : name ∉ ty.literalNames :=
  h.not_mem (Block.derive_eq_ok_iff.mp ⟨x, hderive⟩)

theorem derive (h : r.Forgotten name) (hderive : block.derive r s = .ok (some ty, s')) :
    name ∉ ty.literalNames := by
  cases Block.derives_iff.mpr hderive with
  | function _ hknown => exact h.not_mem (unknownIn?_eq_none_iff.mp hknown)
  | ctor hvariant =>
    obtain ⟨u, hu, howner, hv⟩ := mem_ctors.mp (variant?_mem hvariant).1
    rw [TyTerm.mem_literalNames_curried]
    rintro (⟨param, hparam, hname⟩ | hname)
    · rcases set_or_new_of_mem_fillFields hparam with hset | ⟨v, rfl, _⟩
      · exact h.fields u hu _ hv param hset hname
      · cases hname
    · exact h.ne_of_mem hu ((List.mem_singleton.mp hname).trans howner.symm)
  | caseOf htype =>
    rw [TyTerm.mem_literalNames_curried]
    rintro (⟨param, hparam, hname⟩ | hname)
    · rcases List.mem_cons.mp hparam with rfl | hparam
      · exact h.ne_of_mem (List.mem_of_find?_eq_some htype) (List.mem_singleton.mp hname)
      · rw [List.eq_of_mem_replicate hparam] at hname
        cases hname
    · cases hname
  | list =>
    rw [TyTerm.mem_literalNames_curried]
    rintro (⟨param, hparam, hname⟩ | hname)
    · rw [List.eq_of_mem_replicate hparam] at hname
      cases hname
    · have hlist : name = listType := List.mem_singleton.mp hname
      have hunknown := h.unknown
      simp [isKnownType, hlist] at hunknown
  | localVar => exact List.not_mem_nil

end Forgotten
end Registry

theorem Block.dependsOn_iff {r : Registry} {name : String} {block : Block} (h : r.WellNamed) :
    block.dependsOn r name = true ↔ block.Depends r name := by
  constructor
  · intro hdep
    cases block with
    | literal ty value => exact .literal (by simpa [dependsOn, TyTerm.mentions] using hdep)
    | function applied =>
      obtain ⟨ty, hty, hmentions⟩ := (Option.any_eq_true _ _).mp hdep
      exact .function hty (by simpa [TyTerm.mentions] using hmentions)
    | ctor c =>
      rw [dependsOn, Registry.ctor?_any fun owner => owner = name] at hdep
      obtain ⟨e, he, howner⟩ := (Option.any_eq_true _ _).mp hdep
      obtain ⟨hmem, rfl⟩ := Registry.variant?_mem he
      obtain ⟨u, hu, hname, hv⟩ := Registry.mem_ctors.mp hmem
      have hname : u.name = name := hname.trans (of_decide_eq_true howner)
      exact .ctor (hname ▸ h.named.userType? hu) hv
    | caseOf type binders =>
      obtain rfl : type = name := of_decide_eq_true hdep
      exact .caseOf
    | list items => cases hdep
    | localVar given => cases hdep
  · intro hdep
    cases hdep with
    | literal hname => simpa [dependsOn, TyTerm.mentions] using hname
    | function hty hname => simpa [dependsOn, TyTerm.mentions, hty] using hname
    | @ctor t v ht hv =>
      have hmem : (t.name, v) ∈ r.ctors :=
        Registry.mem_ctors.mpr ⟨t, List.mem_of_find?_eq_some ht, rfl, hv⟩
      rw [dependsOn, Registry.ctor?_any fun owner => owner = name, h.variant? hmem]
      exact decide_eq_true (Registry.userType?_name ht)
    | caseOf => exact decide_eq_true rfl

namespace Workspace

variable {ws ws' : Workspace} {m n : NodeId} {node : Node} {name : String} {listed : List NodeId}

/-! ## The order of nodes -/

theorem addNode_nodeIds (h : ws.Sound) {block : Block} (hok : addNode block ws = .ok n ws') :
    ws'.graph.nodeIds = (ws.graph.insertNode block (.var 0)).2.nodeIds := by
  obtain ⟨_, _, _, houtline, _⟩ := addNode_spec h hok
  rw [← Graph.nodeIds_outline, houtline, Graph.nodeIds_outline, Graph.nodeIds_addInputs]

theorem Action.run_ascending {action : Action} (h : ws.Sound) (hrun : action.run ws = some ws')
    (hids : ws.graph.nodeIds.Pairwise (· < ·)) : ws'.graph.nodeIds.Pairwise (· < ·) := by
  by_cases hresizes : action.resizes = true
  · obtain ⟨ws₀, nodes, houtline, hresized⟩ := action.run_resized h hresizes hrun
    rwa [hresized.nodeIds, ← Graph.nodeIds_outline, houtline, Graph.nodeIds_outline]
  cases action with
  | addNode block =>
    have hrun : after? (Workspace.addNode block) ws = some ws' := hrun
    obtain ⟨n, hok⟩ := after?_eq_some hrun
    rw [addNode_nodeIds h hok]
    exact Slots.put_ascending _ _ hids
  | removeNode n =>
    obtain ⟨_, hok⟩ := after?_eq_some hrun
    rw [Graph.nodeIds, removeNode_nodes h hok, Slots.keys_erase]
    exact hids.filter _
  | connect o i =>
    obtain ⟨_, hok⟩ := after?_eq_some hrun
    obtain ⟨p, c, z, _, _, _, hm⟩ := connect_ok h.graph hok
    rwa [Graph.nodeIds, hm.sameShape.nodes]
  | disconnect o i =>
    obtain ⟨_, hok⟩ := after?_eq_some hrun
    rwa [Graph.nodeIds, disconnect_nodes h hok]
  | attach o i =>
    obtain ⟨_, hok⟩ := after?_eq_some hrun
    obtain ⟨_, rfl⟩ := attach_ok hok
    exact hids
  | resolveAll =>
    cases hrun
    rwa [Graph.nodeIds, (resolveAll_sameShape h).nodes]
  | _ => exact absurd rfl hresizes

theorem Reachable.nodeIds_ascending (h : ws.Reachable) : ws.graph.nodeIds.Pairwise (· < ·) := by
  induction h with
  | empty => exact .nil
  | run h hrun ih => exact Action.run_ascending h.sound hrun ih
  | clear _ hok _ =>
    cases hok
    exact .nil

/-! ## Forgotten names -/

theorem Reachable.signature_of_forgotten (h : ws.Reachable)
    (hforgotten : ws.registry.Forgotten name) (hn : ws.graph.node? n = some node)
    (htyped : node.untyped = none) {t : Ty} (ht : node.signature = some t) :
    name ∉ t.literalNames := by
  obtain ⟨signature, s, hderive, hrel⟩ :=
    h.upToDate.nodes n node hn htyped ws.supply (Nat.le_refl _)
  rw [ht] at hrel
  obtain ⟨f, _, hmap⟩ := hrel
  rw [← TyTerm.literalNames_map f, hmap]
  exact hforgotten.derive hderive

theorem Reachable.not_brings (h : ws.Reachable) (hforgotten : ws.registry.Forgotten name) :
    ¬ ws.Brings m name := by
  rintro (⟨hm, htyped, hscheme, ht, hname⟩ | ⟨_, _, hfield, hname⟩)
  · -- A literal brings the names of its type, any other node those of its signature.
    rw [Node.scheme?] at hscheme
    split at hscheme
    · next t hsignature =>
      cases hscheme
      exact h.signature_of_forgotten hforgotten hm htyped hsignature
        (TyTerm.mem_literalNames_of_uncurry ht hname)
    · next ty value _ hblock =>
      cases hscheme
      obtain ⟨_, _, hderive, _⟩ := h.upToDate.nodes m _ hm htyped ws.supply (Nat.le_refl _)
      rw [hblock] at hderive
      exact hforgotten.literal hderive (List.mem_singleton.mp ht ▸ hname)
    · cases hscheme
  · exact hforgotten.fieldType? hfield hname

theorem Reachable.typeOf?_of_forgotten (h : ws.Reachable) (hforgotten : ws.registry.Forgotten name)
    {s : SocketId} {t : Ty} (ht : ws.typeOf? s = some t) : name ∉ t.literalNames := by
  intro hname
  obtain ⟨socket, hsocket, rfl⟩ := Option.map_eq_some_iff.mp ht
  have howner : ws.graph.owner? s = some socket.node := congrArg (Option.map Socket.node) hsocket
  rw [← stored_eq hsocket] at hname
  obtain ⟨m, _, hbrings⟩ := h.sourced s socket.node howner name hname
  exact h.not_brings hforgotten hbrings

/-! ## Deletion -/

theorem Reachable.dependents_ascending (h : ws.Reachable) (name : String) :
    (ws.dependents name).Pairwise (· < ·) :=
  h.nodeIds_ascending.sublist (List.filter_sublist.map Prod.fst)

theorem Reachable.mem_dependents_iff (h : ws.Reachable) : n ∈ ws.dependents name ↔
    ∃ node, ws.graph.node? n = some node ∧ node.block.Depends ws.registry name := by
  rw [dependents, mem_nodesWhere h.sound.graph]
  exact exists_congr fun node => and_congr_right fun _ => Block.dependsOn_iff h.wellNamed

/-- All nodes that depended on a deleted type are without a signature. -/
theorem Reachable.untyped_of_dependent (h : ws.Reachable)
    (hok : deleteType name ws = .ok listed ws') (hn : n ∈ ws.dependents name) :
    ∃ node, ws'.graph.node? n = some node ∧ node.untyped.isSome = true := by
  obtain ⟨t, registry, hdelete, rfl, _⟩ := deleteType_ok hok
  obtain ⟨node, hnode, hdep⟩ := (mem_nodesWhere h.sound.graph).mp hn
  have hnodup := (Action.Redefines.deleteType hdelete).nodup h.sound.graph
  have hresized := @rebuild_resized { ws with registry } _ h.sound.graph h.sound.below hnodup
  obtain ⟨s, node', hnode', hfollows⟩ :=
    hresized.listed n (concerned_of_dependent h.sound.graph hn) node hnode
  obtain ⟨fault, hmissing⟩ := Registry.deleteType_derive h.wellNamed hdelete hdep s
  refine ⟨node', hnode', ?_⟩
  cases hfollows.installed with
  | found hfound _ => cases hmissing.symm.trans hfound
  | missing _ => rfl

theorem Reachable.deleteType_listed (h : ws.Reachable)
    (hok : deleteType name ws = .ok listed ws') : listed = ws.dependents name := by
  obtain ⟨_, _, _, _, rfl⟩ := deleteType_ok hok
  refine List.filter_eq_self.mpr fun n hn => ?_
  obtain ⟨node, hnode, huntyped⟩ := h.untyped_of_dependent hok hn
  rw [hnode]
  exact huntyped

/-- A deleted type is mentioned in no field, in no type of a socket and in no signature.  What is
listed are the nodes that depended on it, in the order of their numbers, and none of them has a
signature. -/
theorem deleteType_leaves_no_trace (h : ws.Reachable)
    (hok : deleteType name ws = .ok listed ws') :
    (∀ t ∈ ws'.registry.types, ∀ v ∈ t.variants, ∀ ty, some ty ∈ v.fields →
        name ∉ ty.literalNames) ∧
      (∀ s ty, ws'.typeOf? s = some ty → name ∉ ty.literalNames) ∧
      (∀ n node ty, ws'.graph.node? n = some node → node.untyped = none →
        node.signature = some ty → name ∉ ty.literalNames) ∧
      listed.Pairwise (· < ·) ∧
      (∀ n, n ∈ listed ↔ ∃ node, ws.graph.node? n = some node ∧
        node.block.Depends ws.registry name) ∧
      ∀ n ∈ listed, ∃ node, ws'.graph.node? n = some node ∧ node.untyped.isSome = true := by
  have h' : ws'.Reachable :=
    @Reachable.run ws ws' (.deleteType name) h (by rw [Action.run, after?, hok])
  have hforgotten : ws'.registry.Forgotten name := by
    obtain ⟨t, registry, hdelete, rfl, _⟩ := deleteType_ok hok
    rw [((Action.Redefines.deleteType hdelete).revised h.sound).registry]
    exact Registry.deleteType_forgotten h.wellNamed hdelete
  obtain rfl := h.deleteType_listed hok
  exact ⟨hforgotten.fields, fun s ty => h'.typeOf?_of_forgotten hforgotten,
    fun n node ty hn htyped => h'.signature_of_forgotten hforgotten hn htyped,
    h.dependents_ascending name, fun n => h.mem_dependents_iff, fun n => h.untyped_of_dependent hok⟩

/-- A frame has a field for a shape.  There is a list with one shape, a pattern variable for the
shape of a frame, and a literal that is a shape. -/
def framed : List Action :=
  [.defineType "Shape" [⟨"Dot", []⟩], .defineType "Frame" [⟨"Box", [some (.lit "Shape" [])]⟩],
    .addNode (.ctor "Dot"), .addNode (.list 1), .addNode (.caseOf "Frame" []),
    .addNode (.localVar "a"), .addNode (.literal (.lit "Shape" []) "x"), .connect 0 2, .connect 6 5]

/-- The list and the pattern variable have shapes in their types, and do not depend on shapes. -/
theorem deleteType_leaves_no_trace_framed :
    ∃ ws ws' : Workspace, empty.runAll framed = some ws ∧ ws.Reachable ∧
      deleteType "Shape" ws = .ok [0, 4] ws' ∧
      (∃ ty, ws.typeOf? 1 = some ty ∧ "Shape" ∈ ty.literalNames) ∧
      (∃ ty, ws.typeOf? 6 = some ty ∧ "Shape" ∈ ty.literalNames) ∧
      (∃ ty, ws'.typeOf? 1 = some ty ∧ "Shape" ∉ ty.literalNames) ∧
      ∃ ty, ws'.typeOf? 6 = some ty ∧ "Shape" ∉ ty.literalNames := by
  have hcheck : ((empty.runAll framed).any fun ws =>
      ((ws.typeOf? 1).any fun ty => "Shape" ∈ ty.literalNames) &&
      ((ws.typeOf? 6).any fun ty => "Shape" ∈ ty.literalNames) &&
      match deleteType "Shape" ws with
      | .ok listed ws' => listed = [0, 4] && (ws'.typeOf? 1).isSome && (ws'.typeOf? 6).isSome
      | .error .. => false) = true := by
    simp only [framed, runAll, Action.run_defineType]
    cbv
  simp only [Option.any_eq_true, Bool.and_eq_true, decide_eq_true_eq] at hcheck
  obtain ⟨ws, hws, ⟨hlist, hlocal⟩, hdelete⟩ := hcheck
  split at hdelete
  · next listed ws' hok =>
    simp only [Bool.and_eq_true, decide_eq_true_eq, Option.isSome_iff_exists] at hdelete
    obtain ⟨⟨rfl, ty, hty⟩, ty', hty'⟩ := hdelete
    have h := Reachable.empty.runAll hws
    obtain ⟨_, hsockets, _⟩ := deleteType_leaves_no_trace h hok
    exact ⟨ws, ws', hws, h, hok, hlist, hlocal, ⟨ty, hty, hsockets 1 ty hty⟩, ty', hty',
      hsockets 6 ty' hty'⟩
  · cases hdelete

end Workspace
end BlockGraph
