import BlockGraph.Proofs.Graph.Component
import BlockGraph.Proofs.Unification.Families
import BlockGraph.Workspace.Wiring

/-!
# Typings

What it means that types fit a set of nodes: the sockets of each node are an
instance of its signature, the ends of a link have one type, and a pattern variable
has an instance of the type of the field that binds it.  `Typing` says so for any
assignment of types to sockets, and not only for the types that are stored.

For one node the conditions come to one: the types of its sockets are an instance
of the node's shape.  A copy of the shape with other variables serves as well.
-/

namespace BlockGraph

abbrev Assignment := SocketId → Ty

namespace Node

/-- The types that the sockets of a node are an instance of, in the order of the sockets: the
parameters and the result of its signature, or the declared type of a literal. -/
def scheme? (node : Node) : Option (List Ty) :=
  match node.signature, node.block with
  | some t, _ => some (t.uncurry.1 ++ [t.uncurry.2])
  | none, .literal ty _ => some [ty]
  | none, _ => none

/-- One substitution makes the types of a scheme those of the sockets. -/
def InstanceOf (node : Node) (scheme : List Ty) (A : Assignment) : Prop :=
  ∃ θ : TyVar → Ty, node.sockets.map A = scheme.map (TyTerm.bind θ)

/-- A node with a signature has as many inputs as the signature says.  A pattern variable always has
one, and a distinction of cases has one only for a known type. -/
structure Sound (r : Registry) (node : Node) : Prop where
  arity : node.untyped = none → ∃ scheme, node.scheme? = some scheme ∧
    scheme.length = node.sockets.length
  localVar : ∀ name, node.block = .localVar name → node.untyped = none ∧
    ∃ v, node.signature = some (.var v)
  caseOf : ∀ type binders, node.block = .caseOf type binders → node.untyped = none →
    ∃ t, r.userType? type = some t

end Node

namespace Workspace

variable {ws : Workspace} {n : NodeId} {node : Node} {A : Assignment}

/-- The type that the pattern variable of a node has to be an instance of. -/
def InScope (ws : Workspace) (n : NodeId) (node : Node) (A : Assignment) : Prop :=
  ∀ site t, bindingSite? ws.graph none n = some site →
    ws.registry.fieldType? site.type site.branch site.field = some t →
    ∃ θ : TyVar → Ty, A node.output = t.bind θ

/-- The types fit the nodes of a set and the links from them. -/
structure Typing (ws : Workspace) (K : NodeId → Prop) (A : Assignment) : Prop where
  node : ∀ n node, K n → ws.graph.node? n = some node →
    ∃ scheme, node.scheme? = some scheme ∧ node.InstanceOf scheme A
  wire : ∀ a b n, ws.graph.Wired a b → ws.graph.owner? a = some n → K n → A a = A b
  scope : ∀ n node, K n → ws.graph.node? n = some node → ws.InScope n node A

/-- The types that the sockets hold. -/
def stored (ws : Workspace) (s : SocketId) : Ty :=
  (ws.typeOf? s).getD (.var 0)

theorem stored_eq {s : SocketId} {socket : Socket} (h : ws.graph.socket? s = some socket) :
    ws.stored s = socket.ty := by
  rw [stored, typeOf?, h, Option.map_some, Option.getD_some]

theorem typeOf?_eq_stored {s : SocketId} (hs : ws.graph.owner? s = some n) :
    ws.typeOf? s = some (ws.stored s) := by
  obtain ⟨socket, hsocket, _⟩ := Option.map_eq_some_iff.mp hs
  rw [stored_eq hsocket, typeOf?, hsocket, Option.map_some]

/-! ## The shape of a node -/

/-- The scheme of a node where it stands: a pattern variable that is bound has the type of the
field, or any type if that is not set. -/
def shape? (ws : Workspace) (n : NodeId) : Option (List Ty) :=
  match bindingSite? ws.graph none n with
  | some site => some [(ws.registry.fieldType? site.type site.branch site.field).getD (.var 0)]
  | none => (ws.graph.node? n).bind Node.scheme?

theorem bindingSite?_block {g : Graph} {pending : Option Link} {site : BindingSite}
    (hn : g.node? n = some node) (hsite : bindingSite? g pending n = some site) :
    ∃ name, node.block = .localVar name ∧ follow? g pending name node.output [] = some site := by
  simp only [bindingSite?, hn] at hsite
  split at hsite
  · next name hblock => exact ⟨name, hblock, hsite⟩
  · cases hsite

theorem exists_shape (hn : ws.graph.node? n = some node) (hsound : node.Sound ws.registry)
    (htyped : node.untyped = none) :
    ∃ shape, ws.shape? n = some shape ∧ shape.length = node.sockets.length ∧
      ∀ A, ((∃ scheme, node.scheme? = some scheme ∧ node.InstanceOf scheme A) ∧
        ws.InScope n node A) ↔ node.InstanceOf shape A := by
  obtain ⟨scheme, hscheme, hlen⟩ := hsound.arity htyped
  rw [shape?]
  cases hsite : bindingSite? ws.graph none n with
  | none =>
    refine ⟨scheme, by simp [hn, hscheme], hlen, fun A => ⟨?_, fun h => ⟨⟨scheme, hscheme, h⟩, ?_⟩⟩⟩
    · rintro ⟨⟨scheme', hscheme', h⟩, _⟩
      rw [hscheme] at hscheme'
      cases hscheme'
      exact h
    · intro site t hsite'
      rw [hsite] at hsite'
      cases hsite'
  | some site =>
    obtain ⟨name, hblock, _⟩ := bindingSite?_block hn hsite
    obtain ⟨_, v, hsig⟩ := hsound.localVar name hblock
    have hvar : node.scheme? = some [.var v] := by simp [Node.scheme?, hsig, TyTerm.uncurry]
    rw [hvar] at hscheme
    cases hscheme
    have hsockets : node.sockets = [node.output] := by
      have hinputs : node.inputs = [] := by simpa [Node.sockets] using hlen
      rw [Node.sockets, hinputs, List.nil_append]
    have hinstance : ∀ (t : Ty) (A : Assignment),
        node.InstanceOf [t] A ↔ ∃ θ : TyVar → Ty, A node.output = t.bind θ := fun t A => by
      simp [Node.InstanceOf, hsockets]
    refine ⟨_, rfl, hlen, fun A => ?_⟩
    rw [hinstance]
    constructor
    · rintro ⟨_, hscope⟩
      cases hfield : ws.registry.fieldType? site.type site.branch site.field with
      | none => exact ⟨fun _ => A node.output, rfl⟩
      | some t => exact hscope site t hsite hfield
    · intro hθ
      refine ⟨⟨_, hvar, (hinstance _ A).mpr ⟨fun _ => A node.output, rfl⟩⟩, ?_⟩
      intro site' t hsite' hfield
      rw [hsite] at hsite'
      cases hsite'
      rwa [hfield] at hθ

/-- Other variables in a scheme make no difference to its instances. -/
theorem instanceOf_map {scheme : List Ty} {f : TyVar → TyVar}
    (hf : ∀ v ∈ TyTerm.leavesAll scheme, ∀ w ∈ TyTerm.leavesAll scheme, f v = f w → v = w) :
    node.InstanceOf (scheme.map (TyTerm.map f)) A ↔ node.InstanceOf scheme A := by
  constructor
  · rintro ⟨θ, hA⟩
    refine ⟨θ ∘ f, ?_⟩
    rw [hA, List.map_map]
    exact List.map_congr_left fun t _ => TyTerm.bind_map f θ t
  · rintro ⟨θ, hA⟩
    obtain ⟨θ', hθ'⟩ := TyTerm.exists_bind_map hf θ (.var 0)
    refine ⟨θ', ?_⟩
    rw [hA, List.map_map]
    refine List.map_congr_left fun t ht => (hθ' t fun v hv => ?_).symm
    rw [TyTerm.leavesAll_eq_flatMap]
    exact List.mem_flatMap.mpr ⟨t, ht, hv⟩

/-- The types of the sockets of a node are a copy of a scheme with other variables. -/
def CopyOf (node : Node) (scheme : List Ty) (τ : Assignment) : Prop :=
  ∃ f : TyVar → TyVar,
    (∀ v ∈ TyTerm.leavesAll scheme, ∀ w ∈ TyTerm.leavesAll scheme, f v = f w → v = w) ∧
    node.sockets.map τ = scheme.map (TyTerm.map f)

theorem CopyOf.instanceOf_iff {scheme : List Ty} {τ : Assignment} (h : CopyOf node scheme τ) :
    node.InstanceOf scheme A ↔ ∃ θ : TyVar → Ty, ∀ s ∈ node.sockets, A s = (τ s).bind θ := by
  obtain ⟨f, hf, hτ⟩ := h
  rw [← instanceOf_map hf, ← hτ]
  refine exists_congr fun θ => ?_
  rw [List.map_map]
  exact List.map_inj_left

end Workspace
end BlockGraph
