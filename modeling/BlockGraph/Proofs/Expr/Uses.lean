import BlockGraph.Expr.Printer
import BlockGraph.Proofs.Expr.WellTyped
import BlockGraph.Proofs.Workspace.Derived

/-!
# Names that stand for pattern variables

A name in an expression stands for a pattern variable if its tag leads to the node of
one.  `Represents` says what it has to be: a hole if nothing binds the variable, and
otherwise the name of the variable, bound where the variable is.

`Report` is what a part of the building adds to what has been built before: names for
pattern variables, errors for those that nothing binds, and variables for the fields
that have no type.  Parts without nodes in common can be put together.
-/

namespace BlockGraph

namespace Expr

/-- A binding around a place in an expression. -/
structure Binding where
  tag : Option SocketId
  name : String
  ascribed : Ty

/-- The types that names are bound with in an expression. -/
def ascriptions : Expr String → List Ty
  | var _ _ => []
  | lit _ _ => []
  | app _ callee arg => callee.ascriptions ++ arg.ascriptions
  | bind _ _ ascribed body => ascribed :: body.ascriptions

/-- A name in an expression that stands for a pattern variable: the node of the variable, and the
bindings around the place, the innermost first. -/
structure PatternUse where
  node : Node
  name : String
  bindings : List Binding

end Expr

/-- The names in an expression that stand for pattern variables, from left to right.  The node that
a name stands for is the one that its tag leads to. -/
def Graph.patternUses (g : Graph) (bindings : List Expr.Binding) :
    Expr String → List Expr.PatternUse
  | .var tag name =>
    match tag.bind g.source? with
    | some node => if node.block.localName?.isSome then [⟨node, name, bindings⟩] else []
    | none => []
  | .lit _ _ => []
  | .app _ callee arg => g.patternUses bindings callee ++ g.patternUses bindings arg
  | .bind tag name ascribed body => g.patternUses (⟨tag, name, ascribed⟩ :: bindings) body

namespace Workspace

/-- A name is bound with the type of a field.  If that is not set, it is bound with a variable that
the workspace has no use of. -/
def Ascribes (ws : Workspace) (field : Option Ty) (t : Ty) : Prop :=
  match field with
  | some u => t = u
  | none => ∃ v, t = .var v ∧ ws.supply.next ≤ v

/-- The innermost binding of a name is the one that was made for a site: it is tagged with the input
of the branch, and inside of it the branch binds the fields before that of the site. -/
def BoundAt (ws : Workspace) (bindings : List Expr.Binding) (name : String)
    (site : BindingSite) : Prop :=
  ∃ input ascribed inner outer,
    ws.graph.socketAt? site.node (.input (site.branch + 1)) = some input ∧
    bindings = inner ++ ⟨some input, name, ascribed⟩ :: outer ∧
    (∀ b ∈ inner, b.name ≠ name) ∧
    inner.countP (fun b => b.tag = some input) = site.field ∧
    ws.Ascribes (ws.registry.fieldType? site.type site.branch site.field) ascribed

/-- A name stands for the pattern variable of a node: it is a hole if the variable is not bound, and
else the name of the variable, bound where the variable is. -/
def Represents (ws : Workspace) (entry : NodeId × Node) (use : Expr.PatternUse) : Prop :=
  use.node = entry.2 ∧
    match bindingSite? ws.graph none entry.1 with
    | none => use.name = Expr.undefName
    | some site =>
      entry.2.block.localName? = some use.name ∧ ws.BoundAt use.bindings use.name site

end Workspace

namespace Graph

variable {g : Graph} {s : SocketId} {e : Expr String} {tag : Option SocketId} {name : String}
  {Γ : List Expr.Binding}

/-- What a name stands for depends on the node that its tag leads to. -/
theorem patternUses_retag (he : e.isBinding = false)
    (htag : tag.bind g.source? = e.tag.bind g.source?) :
    g.patternUses Γ (e.retag tag) = g.patternUses Γ e := by
  cases e with
  | var tag' name =>
    have htag : tag.bind g.source? = tag'.bind g.source? := htag
    simp only [Expr.retag, patternUses, htag]
  | bind => cases he
  | _ => rfl

theorem patternUses_applyAll (f : Expr String) (args : List (Expr String)) :
    g.patternUses Γ (f.applyAll args) = g.patternUses Γ f ++ args.flatMap (g.patternUses Γ) := by
  induction args generalizing f with
  | nil => exact (List.append_nil _).symm
  | cons x rest ih =>
    rw [Expr.applyAll, List.foldl_cons, ← Expr.applyAll, ih, patternUses, List.flatMap_cons,
      List.append_assoc]

theorem patternUses_head (hs : ∀ node, g.source? s = some node → node.block.localName? = none) :
    g.patternUses Γ (.var (some s) name) = [] := by
  rw [patternUses, Option.bind_some]
  cases hnode : g.source? s with
  | none => rfl
  | some node => simp [hs node hnode]

end Graph

namespace Expr

theorem tag_retag (e : Expr String) (tag : Option SocketId) : (e.retag tag).tag = tag := by
  cases e <;> rfl

theorem retag_retag (e : Expr String) (tag tag' : Option SocketId) :
    (e.retag tag).retag tag' = e.retag tag' := by
  cases e <;> rfl

theorem ascriptions_retag (e : Expr String) (tag : Option SocketId) :
    (e.retag tag).ascriptions = e.ascriptions := by
  cases e <;> rfl

theorem ascriptions_applyAll (f : Expr String) (args : List (Expr String)) :
    (f.applyAll args).ascriptions = f.ascriptions ++ args.flatMap ascriptions := by
  induction args generalizing f with
  | nil => exact (List.append_nil _).symm
  | cons x rest ih =>
    rw [applyAll, List.foldl_cons, ← applyAll, ih, ascriptions, List.flatMap_cons,
      List.append_assoc]

theorem isBinding_applyAll {f : Expr String} (hf : f.isBinding = false)
    (args : List (Expr String)) :
    (f.applyAll args).isBinding = false := by
  induction args generalizing f with
  | nil => exact hf
  | cons x rest ih => exact ih rfl

end Expr

namespace Workspace

variable {lo : TyVar} {types : List Ty}

variable {ws : Workspace} {n : NodeId} {node : Node} {s : SocketId} {name : String}
  {es es' : List (Expr String)} {K K' : NodeId → Prop} {p p' p'' : Build.Progress}

/-! ## What is built -/

/-- Names stand for the pattern variables among the nodes of a set, one for each, and those that are
not bound are reported. -/
def Tallies (ws : Workspace) (K : NodeId → Prop) (uses : List Expr.PatternUse)
    (errors : List TypeError) : Prop :=
  ∃ locals : List (NodeId × Node), locals.Nodup ∧
    (∀ e, e ∈ locals ↔ K e.1 ∧ ws.graph.node? e.1 = some e.2 ∧ e.2.block.localName?.isSome) ∧
    List.Forall₂ ws.Represents locals uses ∧
    errors = locals.filterMap fun e => ws.unboundError? e.1 e.2

theorem tallies_nil (hK : ∀ n node, K n → ws.graph.node? n = some node →
    node.block.localName? = none) : ws.Tallies K [] [] := by
  refine ⟨[], .nil, fun e => ⟨fun he => absurd he List.not_mem_nil, ?_⟩, .nil, rfl⟩
  rintro ⟨hn, hnode, hlocal⟩
  rw [hK e.1 e.2 hn hnode] at hlocal
  cases hlocal

theorem tallies_singleton (hn : ws.graph.node? n = some node)
    (hlocal : node.block.localName?.isSome) (hK : ∀ m, K m ↔ m = n) {use : Expr.PatternUse}
    (huse : ws.Represents (n, node) use) :
    ws.Tallies K [use] (ws.unboundError? n node).toList := by
  refine ⟨[(n, node)], List.nodup_singleton _, fun e => ?_, .cons huse .nil, ?_⟩
  · rw [List.mem_singleton, hK]
    constructor
    · rintro rfl
      exact ⟨rfl, hn, hlocal⟩
    · rintro ⟨rfl, hnode, _⟩
      rw [hn] at hnode
      cases hnode
      rfl
  · cases herror : ws.unboundError? n node <;> simp [herror]

theorem Tallies.append {uses uses' : List Expr.PatternUse} {errors errors' : List TypeError}
    (h : ws.Tallies K uses errors) (h' : ws.Tallies K' uses' errors')
    (hdisjoint : ∀ n, K n → ¬ K' n) :
    ws.Tallies (fun n => K n ∨ K' n) (uses ++ uses') (errors ++ errors') := by
  obtain ⟨locals, hnodup, hmem, hrep, rfl⟩ := h
  obtain ⟨locals', hnodup', hmem', hrep', rfl⟩ := h'
  refine ⟨locals ++ locals', ?_, fun e => ?_, List.rel_append hrep hrep',
    List.filterMap_append.symm⟩
  · refine List.nodup_append'.mpr ⟨hnodup, hnodup', fun e he he' => ?_⟩
    exact hdisjoint e.1 ((hmem e).mp he).1 ((hmem' e).mp he').1
  · rw [List.mem_append, hmem, hmem', or_and_right]

theorem Tallies.congr {uses : List Expr.PatternUse} {errors : List TypeError}
    (h : ws.Tallies K uses errors)
    (hK : ∀ n node, ws.graph.node? n = some node → node.block.localName?.isSome →
      (K' n ↔ K n)) : ws.Tallies K' uses errors := by
  obtain ⟨locals, hnodup, hmem, hrep, herrors⟩ := h
  refine ⟨locals, hnodup, fun e => ?_, hrep, herrors⟩
  rw [hmem]
  exact and_congr_left fun he => (hK e.1 e.2 he.1 he.2).symm

/-- The variables of types that the workspace has no use of. -/
def newVars (ws : Workspace) (types : List Ty) : List TyVar :=
  (types.flatMap TyTerm.leaves).filter fun v => ws.supply.next ≤ v

/-- The new variables of types have been drawn from the supply, each of them once. -/
def Drawn (ws : Workspace) (lo hi : TyVar) (types : List Ty) : Prop :=
  (ws.newVars types).Nodup ∧ ∀ v ∈ ws.newVars types, lo ≤ v ∧ v < hi

theorem Drawn.append {mid hi : TyVar} {types' : List Ty} (h : ws.Drawn lo mid types)
    (h' : ws.Drawn mid hi types') (hlo : lo ≤ mid) (hhi : mid ≤ hi) :
    ws.Drawn lo hi (types ++ types') := by
  have happend : ws.newVars (types ++ types') = ws.newVars types ++ ws.newVars types' := by
    rw [newVars, List.flatMap_append, List.filter_append]
    rfl
  rw [Drawn, happend]
  refine ⟨List.nodup_append'.mpr ⟨h.1, h'.1, fun v hv hv' => ?_⟩, fun v hv => ?_⟩
  · exact absurd (h.2 v hv).2 (Nat.not_lt.mpr (h'.2 v hv').1)
  · rcases List.mem_append.mp hv with hv | hv
    · obtain ⟨hle, hlt⟩ := h.2 v hv
      exact ⟨hle, Nat.lt_of_lt_of_le hlt hhi⟩
    · obtain ⟨hle, hlt⟩ := h'.2 v hv
      exact ⟨Nat.le_trans hlo hle, hlt⟩

theorem Drawn.cons_below {hi : TyVar} (h : ws.Drawn lo hi types) {t : Ty}
    (ht : ∀ v ∈ t.leaves, v < ws.supply.next) : ws.Drawn lo hi (t :: types) := by
  have hnew : ws.newVars (t :: types) = ws.newVars types := by
    rw [newVars, List.flatMap_cons, List.filter_append, List.filter_eq_nil_iff.mpr, List.nil_append]
    · rfl
    · intro v hv
      rw [decide_eq_true_eq]
      exact Nat.not_le.mpr (ht v hv)
  rw [Drawn, hnew]
  exact h

theorem Drawn.cons_fresh {v : TyVar} (h : ws.Drawn lo v types) (hlo : lo ≤ v)
    (hv : ws.supply.next ≤ v) : ws.Drawn lo (v + 1) (.var v :: types) := by
  have hnew : ws.newVars (.var v :: types) = v :: ws.newVars types := by
    simp [newVars, TyTerm.leaves, hv]
  rw [Drawn, hnew]
  refine ⟨List.nodup_cons.mpr ⟨fun hmem => Nat.lt_irrefl v (h.2 v hmem).2, h.1⟩, fun w hw => ?_⟩
  rcases List.mem_cons.mp hw with rfl | hw
  · exact ⟨hlo, Nat.lt_succ_self w⟩
  · obtain ⟨hle, hlt⟩ := h.2 w hw
    exact ⟨hle, Nat.lt_succ_of_lt hlt⟩

/-- What building some expressions adds to what has been built: variables, and reports of pattern
variables that are not bound.  The names in the expressions stand for the pattern variables among
the nodes of a set, wherever the bindings around them satisfy `F`. -/
structure Report (ws : Workspace) (F : List Expr.Binding → Prop) (K : NodeId → Prop)
    (p p' : Build.Progress) (es : List (Expr String)) : Prop where
  supply : p.supply.next ≤ p'.supply.next
  drawn : ws.Drawn p.supply.next p'.supply.next (es.flatMap Expr.ascriptions)
  tally : ∃ errors, p'.errors = p.errors ++ errors ∧
    ∀ Γ, F Γ → ws.Tallies K (es.flatMap (ws.graph.patternUses Γ)) errors

/-- Expressions have the same bound types, and their names stand for the same variables. -/
structure Alike (ws : Workspace) (es es' : List (Expr String)) : Prop where
  ascriptions : es.flatMap Expr.ascriptions = es'.flatMap Expr.ascriptions
  uses : ∀ Γ, es.flatMap (ws.graph.patternUses Γ) = es'.flatMap (ws.graph.patternUses Γ)

theorem Alike.trans {es'' : List (Expr String)} (h : ws.Alike es es') (h' : ws.Alike es' es'') :
    ws.Alike es es'' :=
  ⟨h.ascriptions.trans h'.ascriptions, fun Γ => (h.uses Γ).trans (h'.uses Γ)⟩

theorem Alike.append_left (h : ws.Alike es es') (before : List (Expr String)) :
    ws.Alike (before ++ es) (before ++ es') := by
  constructor
  · rw [List.flatMap_append, List.flatMap_append, h.ascriptions]
  · intro Γ
    rw [List.flatMap_append, List.flatMap_append, h.uses]

theorem alike_head (hs : ∀ node, ws.graph.source? s = some node → node.block.localName? = none) :
    ws.Alike [.var (some s) name] [] :=
  ⟨rfl, fun Γ => by rw [List.flatMap_singleton, Graph.patternUses_head hs, List.flatMap_nil]⟩

/-- A head that stands for no pattern variable adds nothing to its arguments. -/
theorem alike_applyAll
    (hs : ∀ node, ws.graph.source? s = some node → node.block.localName? = none)
    (args : List (Expr String)) : ws.Alike [(Expr.var (some s) name).applyAll args] args := by
  constructor
  · rw [List.flatMap_singleton, Expr.ascriptions_applyAll]
    rfl
  · intro Γ
    rw [List.flatMap_singleton, Graph.patternUses_applyAll, Graph.patternUses_head hs]
    rfl

namespace Report

variable {F F' : List Expr.Binding → Prop}

theorem refl (p : Build.Progress) (hes : ws.Alike es [])
    (hK : ∀ n node, K n → ws.graph.node? n = some node → node.block.localName? = none) :
    ws.Report F K p p es := by
  refine ⟨Nat.le_refl _, ?_, [], (List.append_nil _).symm, fun Γ _ => ?_⟩
  · rw [hes.ascriptions]
    exact ⟨.nil, fun v hv => absurd hv List.not_mem_nil⟩
  · rw [hes.uses]
    exact tallies_nil hK

theorem append (h : ws.Report F K p p' es) (h' : ws.Report F K' p' p'' es')
    (hdisjoint : ∀ n, K n → ¬ K' n) :
    ws.Report F (fun n => K n ∨ K' n) p p'' (es ++ es') := by
  obtain ⟨errors, herrors, htally⟩ := h.tally
  obtain ⟨errors', herrors', htally'⟩ := h'.tally
  refine ⟨Nat.le_trans h.supply h'.supply, ?_, errors ++ errors', ?_, fun Γ hΓ => ?_⟩
  · rw [List.flatMap_append]
    exact h.drawn.append h'.drawn h.supply h'.supply
  · rw [herrors', herrors, List.append_assoc]
  · rw [List.flatMap_append]
    exact (htally Γ hΓ).append (htally' Γ hΓ) hdisjoint

theorem congr (h : ws.Report F K p p' es) (hes : ws.Alike es' es)
    (hK : ∀ n node, ws.graph.node? n = some node → node.block.localName?.isSome →
      (K' n ↔ K n)) (hF : ∀ Γ, F' Γ → F Γ) : ws.Report F' K' p p' es' := by
  obtain ⟨errors, herrors, htally⟩ := h.tally
  refine ⟨h.supply, hes.ascriptions ▸ h.drawn, errors, herrors, fun Γ hΓ => ?_⟩
  rw [hes.uses]
  exact (htally Γ (hF Γ hΓ)).congr hK

end Report

/-- What a step of the builder adds, where `exprs` are the expressions that it returns. -/
def Reports (ws : Workspace) {α : Type} (exprs : α → List (Expr String))
    (F : List Expr.Binding → Prop) (K : NodeId → Prop) (step : Build.Step α) : Prop :=
  ∀ p, ws.supply.next ≤ p.supply.next → ws.Report F K p (step p).2 (exprs (step p).1)

namespace Reports

variable {α β γ : Type} {F F' : List Expr.Binding → Prop} {step : Build.Step α}
    {next : Build.Step β}
  {exprs : α → List (Expr String)} {exprs' : β → List (Expr String)}
  {exprs'' : γ → List (Expr String)}

theorem pure {a : α} (ha : ws.Alike (exprs a) [])
    (hK : ∀ n node, K n → ws.graph.node? n = some node → node.block.localName? = none) :
    ws.Reports exprs F K (Pure.pure a) :=
  fun p _ => .refl p ha hK

theorem map (h : ws.Reports exprs F K step) {f : α → β}
    (hf : ∀ a, ws.Alike (exprs' (f a)) (exprs a)) :
    ws.Reports exprs' F K (step >>= fun a => Pure.pure (f a)) :=
  fun p hp => (h p hp).congr (hf _) (fun _ _ _ _ => .rfl) fun _ hΓ => hΓ

theorem retag_self {step : Build.Step (Expr String)} (h : ws.Reports (fun e => [e]) F K step)
    (htag : Build.Yields step fun e => e.tag = some s) :
    ws.Reports (fun e => [e]) F K (step >>= fun e => Pure.pure (e.retag (some s))) := by
  intro p hp
  refine (h p hp).congr ?_ (fun _ _ _ _ => .rfl) fun _ hΓ => hΓ
  show ws.Alike [(step p).1.retag (some s)] [(step p).1]
  rw [Expr.retag_self (htag p)]
  exact ⟨rfl, fun _ => rfl⟩

/-- Steps that have no node in common, one after another. -/
theorem seq (h : ws.Reports exprs F K step) (h' : ws.Reports exprs' F K' next)
    (hdisjoint : ∀ n, K n → ¬ K' n) {f : α → β → γ}
    (hf : ∀ a b, ws.Alike (exprs'' (f a b)) (exprs a ++ exprs' b)) :
    ws.Reports exprs'' F (fun n => K n ∨ K' n)
      (step >>= fun a => next >>= fun b => Pure.pure (f a b)) := by
  intro p hp
  have hfirst := h p hp
  have hsecond := h' (step p).2 (Nat.le_trans hp hfirst.supply)
  exact (hfirst.append hsecond hdisjoint).congr (hf _ _) (fun _ _ _ _ => .rfl) fun _ hΓ => hΓ

theorem congr (h : ws.Reports exprs F K step)
    (hK : ∀ n node, ws.graph.node? n = some node → node.block.localName?.isSome →
      (K' n ↔ K n)) (hF : ∀ Γ, F' Γ → F Γ) : ws.Reports exprs F' K' step :=
  fun p hp => (h p hp).congr ⟨rfl, fun _ => rfl⟩ hK hF

end Reports

end Workspace

end BlockGraph
