import BlockGraph.Proofs.Registry.Derivation
import BlockGraph.Proofs.Unification.AlphaEquivalence
import BlockGraph.Proofs.Workspace.Fresh
import BlockGraph.Workspace.Validate

/-!
# Types found from the blocks alone

The check from scratch looks for the signature of every node again.  If a node has
what this search finds, the types that the check gives to its sockets are a copy of
the same types that a rebuild starts from, with variables that no other node has.
The two passes list the same faults, except that only the check complains of a
pattern variable that nothing binds.
-/

namespace BlockGraph

/-- The signature of the node, or the reason why it has none, and the number of its inputs are what
a search for its signature gives now. -/
def Node.fitsRegistry (r : Registry) (s : Supply) (node : Node) : Bool :=
  match node.block.derive r s with
  | .ok (some t, _) => node.untyped.isNone && (node.signature.any fun t' => t'.alphaEq t) &&
      node.inputs.length == t.arity
  | .ok (none, _) => node.untyped.isNone && node.signature.isNone && node.inputs.isEmpty
  | .error fault => node.untyped == some (.invalidSignature fault) && node.signature.isNone

namespace Node

variable {node : Node} {r : Registry} {s s' s₁ : Supply} {t : Ty}

theorem fitsRegistry_some (h : node.fitsRegistry r s)
    (hderive : node.block.derive r s = .ok (some t, s₁)) :
    node.untyped = none ∧ (∃ t', node.signature = some t' ∧ t'.RenamesTo t) ∧
      node.inputs.length = t.arity := by
  simp only [fitsRegistry, hderive, Bool.and_eq_true, Option.isNone_iff_eq_none,
    Option.any_eq_true, TyTerm.alphaEq_iff, beq_iff_eq] at h
  exact ⟨h.1.1, h.1.2, h.2⟩

theorem fitsRegistry_none (h : node.fitsRegistry r s)
    (hderive : node.block.derive r s = .ok (none, s₁)) :
    node.untyped = none ∧ node.signature = none ∧ node.inputs = [] := by
  simp only [fitsRegistry, hderive, Bool.and_eq_true, Option.isNone_iff_eq_none,
    List.isEmpty_iff] at h
  exact ⟨h.1.1, h.1.2, h.2⟩

theorem fitsRegistry_error (h : node.fitsRegistry r s) {fault : SignatureFault}
    (hderive : node.block.derive r s = .error fault) :
    node.untyped = some (.invalidSignature fault) ∧ node.signature = none := by
  simp only [fitsRegistry, hderive, Bool.and_eq_true, Option.isNone_iff_eq_none, beq_iff_eq] at h
  exact h

theorem fitsRegistry_untyped (h : node.fitsRegistry r s) (huntyped : node.untyped ≠ none) :
    node.signature = none := by
  cases hderive : node.block.derive r s with
  | error fault => exact (fitsRegistry_error h hderive).2
  | ok found =>
    obtain ⟨signature, s₁⟩ := found
    cases signature with
    | none => exact (fitsRegistry_none h hderive).2.1
    | some t => exact absurd (fitsRegistry_some h hderive).1 huntyped

theorem fitsRegistry_mono (hr : r.Below s) (hs : s.next ≤ s'.next) (h : node.fitsRegistry r s) :
    node.fitsRegistry r s' := by
  cases hderive : node.block.derive r s with
  | error fault =>
    obtain ⟨huntyped, hsig⟩ := fitsRegistry_error h hderive
    simp [fitsRegistry, Block.derive_error hderive s', huntyped, hsig]
  | ok found =>
    obtain ⟨signature, s₁⟩ := found
    obtain ⟨signature', s₂, hderive', hrel⟩ := Block.derive_renamesTo hr hs hderive
    cases hrel with
    | none =>
      obtain ⟨htyped, hsig, hinputs⟩ := fitsRegistry_none h hderive
      simp [fitsRegistry, hderive', htyped, hsig, hinputs]
    | some hrel =>
      obtain ⟨htyped, ⟨t', hsig, hrel'⟩, hinputs⟩ := fitsRegistry_some h hderive
      simp [fitsRegistry, hderive', htyped, hsig,
        TyTerm.alphaEq_iff.mpr (hrel'.trans hrel), hinputs,
        hrel.arity_eq]

end Node

namespace Workspace

variable {ws ws₁ : Workspace} {n : NodeId} {node : Node} {s : Supply} {τ : Assignment}

/-! ## One node -/

/-- The types that the sockets of a node get copies of: a node without a signature has a variable
for each socket. -/
def template (ws : Workspace) (n : NodeId) (node : Node) : List Ty :=
  if node.untyped = none then (ws.shape? n).getD [] else node.sockets.map .var

theorem SameShape.template (h : SameShape ws ws₁) (n : NodeId) (node : Node) :
    ws₁.template n node = ws.template n node := by
  rw [Workspace.template, Workspace.template, h.shape?]

theorem SameShape.untypedErrors (h : SameShape ws ws₁) (nodes : List NodeId) :
    ws₁.untypedErrors nodes = ws.untypedErrors nodes := by
  have hnode : ws₁.graph.node? = ws.graph.node? := funext h.node?
  rw [Workspace.untypedErrors, hnode, Workspace.untypedErrors]

theorem Refreshed.copyOf {nodes : List NodeId} (hr : Refreshed ws ws₁ nodes) (hn : n ∈ nodes)
    (hnode : ws.graph.node? n = some node) (hsound : node.Sound ws.registry)
    (hloose : node.untyped ≠ none → node.signature = none) :
    CopyOf node (ws.template n node) ws₁.stored := by
  rw [template]
  split
  · next htyped =>
    obtain ⟨shape, hshape, hcopy⟩ := hr.copy n hn node hnode hsound htyped
    rwa [hshape]
  · next huntyped => exact hr.loose n hn node hnode hsound huntyped (hloose huntyped)

/-- What is wrong with a node for a pattern variable that nothing binds. -/
def unboundError? (ws : Workspace) (n : NodeId) (node : Node) : Option TypeError :=
  match node.block with
  | .localVar name =>
    if (ws.binding? none n).isNone then some (.invalidSignature (.unboundLocal name)) else none
  | _ => none

/-- The errors for the pattern variables that nothing binds, one for each node. -/
def unboundErrors (ws : Workspace) : List TypeError :=
  ws.graph.nodes.entries.filterMap fun e => ws.unboundError? e.1 e.2

/-- Errors that are listed node by node, and the same errors listed in two rounds. -/
theorem flatMap_errors_perm (h : ws.graph.WellFormed) :
    (ws.graph.nodes.entries.flatMap fun e =>
      e.2.untyped.toList ++ (ws.unboundError? e.1 e.2).toList).Perm
        (ws.untypedErrors ws.graph.nodeIds ++ ws.unboundErrors) := by
  have huntyped : ws.untypedErrors ws.graph.nodeIds =
      ws.graph.nodes.entries.flatMap fun e => e.2.untyped.toList := by
    rw [untypedErrors, ← List.filterMap_eq_flatMap_toList]
    refine (List.filterMap_map ..).trans (List.filterMap_congr fun e he => ?_)
    have hnode : ws.graph.node? e.1 = some e.2 := (Slots.mem_entries_iff h.nodes).mp he
    rw [Function.comp_apply, hnode, Option.bind_some]
  rw [huntyped, unboundErrors, List.filterMap_eq_flatMap_toList]
  exact (List.flatMap_append_perm ..).symm

theorem CopyOf.of_map {scheme : List Ty} {f : TyVar → TyVar}
    (hf : ∀ v ∈ TyTerm.leavesAll scheme, ∀ w ∈ TyTerm.leavesAll scheme, f v = f w → v = w)
    (h : CopyOf node (scheme.map (TyTerm.map f)) τ) : CopyOf node scheme τ := by
  obtain ⟨g, hg, hτ⟩ := h
  have hmem : ∀ v ∈ TyTerm.leavesAll scheme,
      f v ∈ TyTerm.leavesAll (scheme.map (TyTerm.map f)) := by
    intro v hv
    rw [TyTerm.leavesAll_eq_flatMap, List.mem_flatMap] at hv ⊢
    obtain ⟨t, ht, hv⟩ := hv
    exact ⟨t.map f, List.mem_map_of_mem ht, TyTerm.mem_leaves_map_iff.mpr ⟨v, hv, rfl⟩⟩
  refine ⟨g ∘ f, fun v hv w hw hvw => hf v hv w hw (hg _ (hmem v hv) _ (hmem w hw) hvw), ?_⟩
  rw [hτ, List.map_map]
  exact List.map_congr_left fun t _ => TyTerm.map_map f g t

/-- A copy of a signature with other names is a copy of the signature. -/
theorem CopyOf.of_renamesTo {t t' : Ty} (ht : t.RenamesTo t')
    (h : CopyOf node (t'.uncurry.1 ++ [t'.uncurry.2]) τ) :
    CopyOf node (t.uncurry.1 ++ [t.uncurry.2]) τ := by
  obtain ⟨f, hf, rfl⟩ := ht
  refine CopyOf.of_map (fun v hv w hw =>
    hf v (t.leavesAll_uncurry hv) w (t.leavesAll_uncurry hw)) ?_
  rw [TyTerm.uncurry_map] at h
  rwa [List.map_append, List.map_singleton]

/-- One step of the search: what is wrong with a node, and types for its sockets. -/
def deriveNode (ws : Workspace) (n : NodeId) (node : Node) (s : Supply) :
    List TypeError × List (SocketId × Ty) × Supply :=
  let (faults, (params, result), s) := ws.derived n node s
  let (unbound, result, s) := ws.inScope n node result s
  let (types, s) := inputTypes node.inputs params s
  (faults ++ unbound, types ++ [(node.output, result)], s)

theorem deriveAll_cons (ws : Workspace) (n : NodeId) (node : Node) (rest : List (NodeId × Node))
    (s : Supply) :
    ws.deriveAll ((n, node) :: rest) s =
      ((ws.deriveNode n node s).1 ++ (ws.deriveAll rest (ws.deriveNode n node s).2.2).1,
        (ws.deriveNode n node s).2.1 ++ (ws.deriveAll rest (ws.deriveNode n node s).2.2).2) := by
  simp [deriveAll, deriveNode]

/-- What the search finds for a node that has it already. -/
structure NodeDerived (ws : Workspace) (n : NodeId) (node : Node) (s : Supply)
    (found : List TypeError × List (SocketId × Ty) × Supply) : Prop where
  errors : found.1 = node.untyped.toList ++ (ws.unboundError? n node).toList
  sockets : found.2.1.map Prod.fst = node.sockets
  supply : s.next ≤ found.2.2.next
  within : ∀ e ∈ found.2.1, e.2.Within s.next found.2.2.next
  copy : ∀ τ, node.sockets.map τ = found.2.1.map Prod.snd → CopyOf node (ws.template n node) τ

theorem inScope_of_unbound (hsite : bindingSite? ws.graph none n = none) (result : Ty)
    (s : Supply) :
    ws.inScope n node result s = ((ws.unboundError? n node).toList, result, s) := by
  cases hblock : node.block with
  | localVar name => simp [inScope, unboundError?, hblock, hsite, binding?]
  | _ => simp [inScope, unboundError?, hblock]

theorem NodeDerived.of_copied {scheme params : List Ty} {result : Ty} {errors : List TypeError}
    {s₁ s₂ : Supply} (hs : s.next ≤ s₁.next) (hcopied : CopiedFrom s₁ scheme ((params, result), s₂))
    (herrors : errors = node.untyped.toList ++ (ws.unboundError? n node).toList)
    (hcopy : ∀ τ, node.sockets.map τ = ((inputTypes node.inputs params s₂).1 ++
      [(node.output, result)]).map Prod.snd → CopyOf node (ws.template n node) τ) :
    NodeDerived ws n node s
      (errors, (inputTypes node.inputs params s₂).1 ++ [(node.output, result)],
      (inputTypes node.inputs params s₂).2) := by
  obtain ⟨hkeys, hle, _⟩ := inputTypes_spec node.inputs params s₂
  refine ⟨herrors, ?_, Nat.le_trans hs (Nat.le_trans hcopied.le hle), fun e he => ?_, hcopy⟩
  · rw [List.map_append, hkeys]
    rfl
  · exact (hcopied.types_within node.inputs node.output e he).mono hs (Nat.le_refl _)

theorem map_snd_inputTypes {inputs : List SocketId} {params : List Ty} {result : Ty}
    (hlen : params.length = inputs.length) (output : SocketId) (s : Supply) :
    ((inputTypes inputs params s).1 ++ [(output, result)]).map Prod.snd = params ++ [result] := by
  rw [inputTypes_of_length hlen, List.map_append, List.map_snd_zip (Nat.le_of_eq hlen)]
  rfl

theorem deriveNode_bound {site : BindingSite} (hn : ws.graph.node? n = some node)
    (hfits : node.fitsRegistry ws.registry s)
    (hsite : bindingSite? ws.graph none n = some site) :
    NodeDerived ws n node s (ws.deriveNode n node s) := by
  obtain ⟨name, hblock, _⟩ := bindingSite?_block hn hsite
  have hderive : node.block.derive ws.registry s = .ok (some s.fresh.1, s.fresh.2) := by
    rw [hblock]
    rfl
  obtain ⟨htyped, _, hinputs⟩ := Node.fitsRegistry_some hfits hderive
  have hlen : ([] : List Ty).length = node.inputs.length := hinputs.symm
  let s₁ := (s.fresh.1.instantiate s.fresh.2).2
  have hs₁ : s.next ≤ s₁.next :=
    Nat.le_trans (Nat.le_succ _) (Supply.le_instantiate s.fresh.1 s.fresh.2)
  have heq : ws.deriveNode n node s = ([],
      (inputTypes node.inputs [] (siteType ws.registry site s₁).2).1 ++
        [(node.output, (siteType ws.registry site s₁).1)],
      (inputTypes node.inputs [] (siteType ws.registry site s₁).2).2) := by
    have hderived : ws.derived n node s = ([], ([], (s.fresh.1.instantiate s.fresh.2).1), s₁) := by
      simp only [derived, hderive, hinputs, if_true]
      rfl
    have hscope : ws.inScope n node (s.fresh.1.instantiate s.fresh.2).1 s₁ =
        ([], siteType ws.registry site s₁) := by
      simp only [inScope, hblock, hsite]
    simp only [deriveNode, hderived, hscope, List.append_nil]
  have hcopied := siteType_copied ws.registry site s₁
  rw [heq]
  refine .of_copied hs₁ hcopied ?_ fun τ hτ => ?_
  · simp [htyped, unboundError?, hblock, binding?, hsite]
  · rw [map_snd_inputTypes hlen] at hτ
    have htemplate : ws.template n node =
        [(ws.registry.fieldType? site.type site.branch site.field).getD (.var 0)] := by
      simp [template, htyped, shape?, hsite]
    rw [htemplate]
    exact hcopied.copyOf hτ

section Unbound

variable (hsite : bindingSite? ws.graph none n = none)
include hsite

theorem deriveNode_of_error {fault : SignatureFault}
    (hderive : node.block.derive ws.registry s = .error fault) :
    ws.deriveNode n node s = ([.invalidSignature fault] ++ (ws.unboundError? n node).toList,
      (inputTypes node.inputs [] s.fresh.2).1 ++ [(node.output, s.fresh.1)],
      (inputTypes node.inputs [] s.fresh.2).2) := by
  simp only [deriveNode, derived, hderive, inScope_of_unbound hsite]

theorem deriveNode_of_signature {t : Ty} {s₁ : Supply}
    (hderive : node.block.derive ws.registry s = .ok (some t, s₁))
    (hinputs : node.inputs.length = t.arity) :
    ws.deriveNode n node s = ((ws.unboundError? n node).toList,
      (inputTypes node.inputs (t.instantiate s₁).1.uncurry.1 (t.instantiate s₁).2).1 ++
        [(node.output, (t.instantiate s₁).1.uncurry.2)],
      (inputTypes node.inputs (t.instantiate s₁).1.uncurry.1 (t.instantiate s₁).2).2) := by
  simp only [deriveNode, derived, hderive, hinputs, if_true, inScope_of_unbound hsite,
    List.nil_append]

theorem deriveNode_of_literal {ty : Ty} {value : String} {s₁ : Supply}
    (hderive : node.block.derive ws.registry s = .ok (none, s₁))
    (hblock : node.block = .literal ty value) :
    ws.deriveNode n node s = ((ws.unboundError? n node).toList,
      (inputTypes node.inputs [] (ty.instantiate s₁).2).1 ++ [(node.output, (ty.instantiate s₁).1)],
      (inputTypes node.inputs [] (ty.instantiate s₁).2).2) := by
  have hderived : ws.derived n node s =
      ([], ([], (ty.instantiate s₁).1), (ty.instantiate s₁).2) := by
    simp only [derived, hderive]
    rw [hblock]
  simp only [deriveNode, hderived, inScope_of_unbound hsite, List.nil_append]

theorem deriveNode_unbound (hn : ws.graph.node? n = some node)
    (hfits : node.fitsRegistry ws.registry s) :
    NodeDerived ws n node s (ws.deriveNode n node s) := by
  have hshape : ws.shape? n = node.scheme? := by simp [shape?, hsite, hn]
  cases hderive : node.block.derive ws.registry s with
  | error fault =>
    obtain ⟨huntyped, hsig⟩ := Node.fitsRegistry_error hfits hderive
    rw [deriveNode_of_error hsite hderive]
    refine .of_copied (Nat.le_refl _) (copiedFrom_fresh s 0) (by rw [huntyped]; rfl) fun τ hτ => ?_
    rw [List.map_append] at hτ
    rw [template, if_neg (by rw [huntyped]; exact Option.some_ne_none _)]
    exact copyOf_fresh hτ
  | ok found =>
    obtain ⟨signature, s₁⟩ := found
    obtain ⟨hs₁, hliteral, _⟩ := Block.derive_spec hderive
    cases signature with
    | some t =>
      obtain ⟨htyped, ⟨t', hsig, hrel⟩, hinputs⟩ := Node.fitsRegistry_some hfits hderive
      have hcopied := copiedFrom_uncurry s₁ t
      rw [deriveNode_of_signature hsite hderive hinputs]
      refine .of_copied hs₁ hcopied (by rw [htyped]; rfl) fun τ hτ => ?_
      have hlen : (t.instantiate s₁).1.uncurry.1.length = node.inputs.length := by
        rw [TyTerm.instantiate, TyTerm.uncurry_map, List.length_map, TyTerm.length_uncurry, hinputs]
      rw [map_snd_inputTypes hlen] at hτ
      have htemplate : ws.template n node = t'.uncurry.1 ++ [t'.uncurry.2] := by
        simp [template, htyped, hshape, Node.scheme?, hsig]
      rw [htemplate]
      exact (hcopied.copyOf hτ).of_renamesTo hrel
    | none =>
      obtain ⟨ty, value, hblock⟩ := hliteral rfl
      obtain ⟨htyped, hsig, hinputs⟩ := Node.fitsRegistry_none hfits hderive
      have hcopied := copiedFrom_instantiate s₁ ty
      rw [deriveNode_of_literal hsite hderive hblock]
      refine .of_copied hs₁ hcopied (by rw [htyped]; rfl) fun τ hτ => ?_
      rw [map_snd_inputTypes (by rw [hinputs]; rfl)] at hτ
      have htemplate : ws.template n node = [ty] := by
        simp [template, htyped, hshape, Node.scheme?, hsig, hblock]
      rw [htemplate]
      exact hcopied.copyOf hτ

end Unbound

theorem deriveNode_derived (hn : ws.graph.node? n = some node)
    (hfits : node.fitsRegistry ws.registry s) :
    NodeDerived ws n node s (ws.deriveNode n node s) := by
  cases hsite : bindingSite? ws.graph none n with
  | none => exact deriveNode_unbound hsite hn hfits
  | some site => exact deriveNode_bound hn hfits hsite

/-! ## All nodes -/

def typeIn (types : List (SocketId × Ty)) (t : SocketId) : Ty :=
  (types.lookup t).getD (.var 0)

/-- What the search finds for nodes that have it already. -/
structure Derived (ws : Workspace) (entries : List (NodeId × Node)) (s : Supply)
    (found : List TypeError × List (SocketId × Ty)) : Prop where
  errors : found.1 = entries.flatMap fun e =>
    e.2.untyped.toList ++ (ws.unboundError? e.1 e.2).toList
  lookup : ∀ e ∈ entries, ∀ t ∈ e.2.sockets, found.2.lookup t = some (typeIn found.2 t)
  above : ∀ e ∈ entries, ∀ t ∈ e.2.sockets, ∀ v ∈ (typeIn found.2 t).leaves, s.next ≤ v
  apart : ∀ e ∈ entries, ∀ e' ∈ entries, ∀ t ∈ e.2.sockets, ∀ t' ∈ e'.2.sockets, ∀ v,
    v ∈ (typeIn found.2 t).leaves → v ∈ (typeIn found.2 t').leaves → e.1 = e'.1
  copy : ∀ e ∈ entries, CopyOf e.2 (ws.template e.1 e.2) (typeIn found.2)

theorem lookup_append_of_mem {own rest : List (SocketId × Ty)} (hnodup : (own.map Prod.fst).Nodup)
    {e : SocketId × Ty} (he : e ∈ own) : (own ++ rest).lookup e.1 = some e.2 := by
  rw [List.lookup_append, (mem_iff_lookup_of_nodup hnodup).mp he, Option.some_or]

theorem lookup_append_of_not_mem {own rest : List (SocketId × Ty)} {t : SocketId}
    (ht : t ∉ own.map Prod.fst) : (own ++ rest).lookup t = rest.lookup t := by
  have hnone : own.lookup t = none := by
    rw [List.lookup_eq_none_iff]
    exact fun e he => bne_iff_ne.mpr fun heq => ht (List.mem_map.mpr ⟨e, he, heq.symm⟩)
  rw [List.lookup_append, hnone, Option.none_or]

theorem Derived.cons (h : ws.graph.WellFormed) (hn : ws.graph.node? n = some node)
    {rest : List (NodeId × Node)} (hlive : ∀ e ∈ rest, ws.graph.node? e.1 = some e.2)
    (hnew : n ∉ rest.map Prod.fst) {own : List TypeError × List (SocketId × Ty) × Supply}
    {more : List TypeError × List (SocketId × Ty)} (hnode : NodeDerived ws n node s own)
    (hmore : Derived ws rest own.2.2 more) :
    Derived ws ((n, node) :: rest) s (own.1 ++ more.1, own.2.1 ++ more.2) := by
  have hkeys : (own.2.1.map Prod.fst).Nodup := by
    rw [hnode.sockets]
    exact Graph.sockets_nodup h hn
  have hfirst : ∀ t ∈ node.sockets, ∃ e ∈ own.2.1, e.1 = t := fun t ht =>
    List.mem_map.mp (hnode.sockets ▸ ht)
  have hlater : ∀ e ∈ rest, ∀ t ∈ e.2.sockets, t ∉ own.2.1.map Prod.fst := by
    intro e he t ht ht'
    rw [hnode.sockets, Graph.mem_sockets_iff h hn] at ht'
    rw [Graph.mem_sockets_iff h (hlive e he), ht'] at ht
    exact hnew (List.mem_map.mpr ⟨e, he, (Option.some.inj ht).symm⟩)
  have htype : ∀ e ∈ own.2.1, typeIn (own.2.1 ++ more.2) e.1 = e.2 := fun e he => by
    rw [typeIn, lookup_append_of_mem hkeys he, Option.getD_some]
  have htype' : ∀ e ∈ rest, ∀ t ∈ e.2.sockets,
      typeIn (own.2.1 ++ more.2) t = typeIn more.2 t := fun e he t ht => by
    rw [typeIn, lookup_append_of_not_mem (hlater e he t ht), typeIn]
  have hbelow : ∀ t ∈ node.sockets, (typeIn (own.2.1 ++ more.2) t).Within s.next own.2.2.next := by
    intro t ht
    obtain ⟨e, he, rfl⟩ := hfirst t ht
    rw [htype e he]
    exact hnode.within e he
  have habove : ∀ e ∈ rest, ∀ t ∈ e.2.sockets, ∀ v ∈ (typeIn (own.2.1 ++ more.2) t).leaves,
      own.2.2.next ≤ v := by
    intro e he t ht v hv
    rw [htype' e he t ht] at hv
    exact hmore.above e he t ht v hv
  refine ⟨?_, fun e he t ht => ?_, fun e he t ht v hv => ?_,
    fun e he e' he' t ht t' ht' v hv hv' => ?_, fun e he => ?_⟩
  · rw [List.flatMap_cons, hnode.errors, hmore.errors]
  · rcases List.mem_cons.mp he with rfl | he
    · obtain ⟨e, he, rfl⟩ := hfirst t ht
      rw [htype e he]
      exact lookup_append_of_mem hkeys he
    · rw [htype' e he t ht]
      exact (lookup_append_of_not_mem (hlater e he t ht)).trans (hmore.lookup e he t ht)
  · rcases List.mem_cons.mp he with rfl | he
    · exact (hbelow t ht v hv).1
    · exact Nat.le_trans hnode.supply (habove e he t ht v hv)
  · rcases List.mem_cons.mp he with rfl | he <;> rcases List.mem_cons.mp he' with rfl | he'
    · rfl
    · exact absurd (hbelow t ht v hv).2 (Nat.not_lt.mpr (habove e' he' t' ht' v hv'))
    · exact absurd (hbelow t' ht' v hv').2 (Nat.not_lt.mpr (habove e he t ht v hv))
    · rw [htype' e he t ht] at hv
      rw [htype' e' he' t' ht'] at hv'
      exact hmore.apart e he e' he' t ht t' ht' v hv hv'
  · rcases List.mem_cons.mp he with rfl | he
    · refine hnode.copy _ ?_
      rw [← hnode.sockets, List.map_map]
      exact List.map_congr_left htype
    · obtain ⟨f, hf, hcopy⟩ := hmore.copy e he
      exact ⟨f, hf, (List.map_congr_left fun t ht => htype' e he t ht).trans hcopy⟩

theorem deriveAll_derived (h : ws.graph.WellFormed) {entries : List (NodeId × Node)}
    (hlive : ∀ e ∈ entries, ws.graph.node? e.1 = some e.2) (hnodup : (entries.map Prod.fst).Nodup)
    (hfits : ∀ e ∈ entries, ∀ s', s.next ≤ s'.next → e.2.fitsRegistry ws.registry s') :
    Derived ws entries s (ws.deriveAll entries s) := by
  induction entries generalizing s with
  | nil =>
    exact ⟨rfl, fun e he => absurd he List.not_mem_nil, fun e he => absurd he List.not_mem_nil,
      fun e he => absurd he List.not_mem_nil, fun e he => absurd he List.not_mem_nil⟩
  | cons e rest ih =>
    obtain ⟨n, node⟩ := e
    obtain ⟨hn, hlive⟩ := List.forall_mem_cons.mp hlive
    obtain ⟨hnew, hnodup⟩ := List.nodup_cons.mp hnodup
    obtain ⟨hfirst, hfits⟩ := List.forall_mem_cons.mp hfits
    have hnode := deriveNode_derived hn (hfirst s (Nat.le_refl _))
    rw [deriveAll_cons]
    exact .cons h hn hlive hnew hnode (ih hlive hnodup fun e he s' hs' =>
      hfits e he s' (Nat.le_trans hnode.supply hs'))

end Workspace
end BlockGraph
