import BlockGraph.Expr.Build
import BlockGraph.Proofs.Workspace.Typing

/-!
# The types of expressions

An expression is typed in a context of pattern variables, each of which has any
instance of the type that it is bound with.  A name that is not bound is a function
or a constructor, with any instance of its signature in the registry, or it stands
for a list or for a hole.  The names of the prelude have their types whatever is bound
around them.  A literal is the value of a literal node, with the type
of that node's output, or the name of a type in a distinction of cases, with that
type.  Which of the two it is follows from the socket that it is tagged with.

A pattern variable hides all else that has its name.  `captureFree` checks that this
happens to no name that a block applies, and to no hole.
-/

namespace BlockGraph

namespace Block

def head? : Block → Option String
  | function name => some name
  | ctor name => some name
  | list _ => some Expr.listName
  | _ => none

def localName? : Block → Option String
  | localVar name => some name
  | _ => none

end Block

/-- The node that a socket has its value from.  That of an input is at the other end of its link. -/
def Graph.source? (g : Graph) (s : SocketId) : Option Node :=
  (g.socket? s).bind fun socket =>
    match socket.role with
    | .output => g.node? socket.node
    | .input _ => ((g.peer? s).bind g.owner?).bind g.node?

/-- Pattern variables with the types that they are bound with, the innermost first. -/
abbrev Context := List (String × Ty)

/-- `HasType ws Γ k e t` says that `e` has the type `t` where it is applied to `k` arguments. -/
inductive Workspace.HasType (ws : Workspace) : Context → Nat → Expr String → Ty → Prop
  | pattern {Γ k tag name t} (θ : TyVar → Ty) (hbound : Γ.lookup name = some t) :
      HasType ws Γ k (.var tag name) (t.bind θ)
  | combinator {Γ k tag name t} (θ : TyVar → Ty) (hname : Registry.prelude.lookup name = some t) :
      HasType ws Γ k (.var tag name) (t.bind θ)
  | function {Γ k tag name t} (θ : TyVar → Ty) (hfree : Γ.lookup name = none)
      (hname : ws.registry.function? name = some t) : HasType ws Γ k (.var tag name) (t.bind θ)
  | ctor {Γ k tag name t s} (θ : TyVar → Ty) (hfree : Γ.lookup name = none)
      (hname : ws.registry.ctorSignature? name ws.supply = some (t, s)) :
      HasType ws Γ k (.var tag name) (t.bind θ)
  | list {Γ k tag} (item : Ty) (hfree : Γ.lookup Expr.listName = none) :
      HasType ws Γ k (.var tag Expr.listName)
        (.curried (List.replicate k item) (.lit Registry.listType [item]))
  | hole {Γ k tag} (t : Ty) (hfree : Γ.lookup Expr.undefName = none) :
      HasType ws Γ k (.var tag Expr.undefName) t
  | value {Γ k tag value node ty} (hsource : tag.bind ws.graph.source? = some node)
      (hblock : node.block = .literal ty value) :
      HasType ws Γ k (.lit tag value) (ws.stored node.output)
  | typeName {Γ k tag type node binders} (hsource : tag.bind ws.graph.source? = some node)
      (hblock : node.block = .caseOf type binders) :
      HasType ws Γ k (.lit tag type) (.lit type [])
  | app {Γ k tag f x t u} (hf : HasType ws Γ (k + 1) f (.fn t u)) (hx : HasType ws Γ 0 x t) :
      HasType ws Γ k (.app tag f x) u
  | bind {Γ k tag name t body u} (hbody : HasType ws ((name, t) :: Γ) k body u) :
      HasType ws Γ k (.bind tag name t body) u

namespace Graph

variable {g : Graph} {s o : SocketId} {n m : NodeId} {node : Node} {bound : List String}
  {e : Expr String} {tag : Option SocketId} {name : String} {Γ : Context}

/-- Whether a name is one that a block applies, or a hole. -/
def isHeadOrHole (g : Graph) (tag : Option SocketId) (name : String) : Bool :=
  let block? := (tag.bind g.source?).map Node.block
  block?.bind Block.head? = some name ||
    (name = Expr.undefName && block?.bind Block.localName? ≠ some Expr.undefName)

/-- Whether no name that a block applies and no hole is hidden by a pattern variable. -/
def captureFree (g : Graph) (bound : List String) : Expr String → Bool
  | .var tag name => !(bound.contains name && g.isHeadOrHole tag name)
  | .lit _ _ => true
  | .app _ f x => g.captureFree bound f && g.captureFree bound x
  | .bind _ name _ body => g.captureFree (name :: bound) body

theorem source?_output (hs : g.At s n .output) : g.source? s = g.node? n := by
  obtain ⟨socket, hsocket, rfl, hrole⟩ := hs
  simp [source?, hsocket, hrole]

theorem source?_node (h : g.WellFormed) (hn : g.node? n = some node) :
    g.source? node.output = some node := by
  rw [source?_output ((At.output_eq h hn).mpr rfl), hn]

theorem source?_input {k : Nat} (hs : g.At s n (.input k)) (hp : g.peer? s = some o)
    (ho : g.At o m .output) : g.source? s = g.source? o := by
  rw [source?_output ho]
  obtain ⟨socket, hsocket, rfl, hrole⟩ := hs
  simp [source?, hsocket, hrole, hp, owner?_eq_some_iff.mpr ⟨_, ho⟩]

theorem source?_unlinked {k : Nat} (hs : g.At s n (.input k)) (hp : g.peer? s = none) :
    g.source? s = none := by
  obtain ⟨socket, hsocket, rfl, hrole⟩ := hs
  simp [source?, hsocket, hrole, hp]

theorem captureFree_retag (htag : tag.bind g.source? = e.tag.bind g.source?) :
    g.captureFree bound (e.retag tag) = g.captureFree bound e := by
  cases e with
  | var tag' name =>
    have htag : tag.bind g.source? = tag'.bind g.source? := htag
    simp only [Expr.retag, captureFree, isHeadOrHole, htag]
  | _ => rfl

theorem captureFree_applyAll (f : Expr String) (args : List (Expr String)) :
    g.captureFree bound (f.applyAll args) =
      (g.captureFree bound f && args.all (g.captureFree bound)) := by
  induction args generalizing f with
  | nil => simp [Expr.applyAll]
  | cons x rest ih =>
    rw [Expr.applyAll, List.foldl_cons, ← Expr.applyAll, ih, captureFree, List.all_cons,
      Bool.and_assoc]

theorem lookup_of_captureFree (hfree : g.captureFree (Γ.map Prod.fst) (.var tag name) = true)
    (hname : g.isHeadOrHole tag name = true) : Γ.lookup name = none := by
  rw [captureFree, hname, Bool.and_true, Bool.not_eq_true', List.contains_eq_mem,
    decide_eq_false_iff_not] at hfree
  rw [List.lookup_eq_none_iff]
  intro p hp
  rw [bne_iff_ne]
  rintro rfl
  exact hfree (List.mem_map_of_mem hp)

theorem isHeadOrHole_head (hsource : g.source? s = some node)
    (hhead : node.block.head? = some name) :
    g.isHeadOrHole (some s) name = true := by
  simp [isHeadOrHole, hsource, hhead]

theorem isHeadOrHole_hole
    (hsource : ∀ node, g.source? s = some node → node.block.localName? ≠ some Expr.undefName) :
    g.isHeadOrHole (some s) Expr.undefName = true := by
  cases hs : g.source? s with
  | none => simp [isHeadOrHole, hs]
  | some node => simp [isHeadOrHole, hs, hsource node hs]

end Graph

namespace Workspace.HasType

variable {ws : Workspace} {Γ : Context} {k : Nat} {e f : Expr String} {t : Ty}
  {tag : Option SocketId} {args : List (Expr String)} {types : List Ty}

/-- Only the node matters that a tag leads to. -/
theorem retag (h : ws.HasType Γ k e t)
    (htag : tag.bind ws.graph.source? = e.tag.bind ws.graph.source?) :
    ws.HasType Γ k (e.retag tag) t := by
  cases h with
  | pattern θ hbound => exact .pattern θ hbound
  | combinator θ hname => exact .combinator θ hname
  | function θ hfree hname => exact .function θ hfree hname
  | ctor θ hfree hname => exact .ctor θ hfree hname
  | list item hfree => exact .list item hfree
  | hole t hfree => exact .hole t hfree
  | value hsource hblock => exact .value (htag.trans hsource) hblock
  | typeName hsource hblock => exact .typeName (htag.trans hsource) hblock
  | app hf hx => exact .app hf hx
  | bind hbody => exact .bind hbody

theorem applyAll (hf : ws.HasType Γ args.length f (.curried types t))
    (hargs : List.Forall₂ (ws.HasType Γ 0) args types) : ws.HasType Γ 0 (f.applyAll args) t := by
  induction hargs generalizing f with
  | nil => exact hf
  | cons hx _ ih => exact ih (.app hf hx)

end Workspace.HasType

end BlockGraph
