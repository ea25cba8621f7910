import BlockGraph.Proofs.Expr.Leaves
import BlockGraph.Proofs.Expr.Scopes

/-!
# The expression covers what is upstream

The expression of an output has a leaf for every node upstream, and one for every input
upstream that nothing feeds.  Since an output feeds at most one input, the builder comes
to no node twice, except to the node where it began.  This happens at most once, and is
what is reported as a cycle.

The proof follows the builder: what is accounted for behind the inputs of a node makes up
what is accounted for in its expression.
-/

namespace BlockGraph

namespace Workspace

open Build

variable {ws : Workspace} {root s t o : SocketId} {n m r : NodeId} {node : Node} {k : Nat}
  {path ss : List SocketId} {scope : Scope} {build : Builder} {type name : String}
  {binders : List (List String)} {active : List NodeId} {X Y Z : Origin → Prop}

/-- What a step of the builder reports, and the leaves of what it returns, are accounted for. -/
def Accounts (ws : Workspace) (root : SocketId) {α : Type} (leaves : α → List Expr.Leaf)
    (X : Origin → Prop) (step : Build.Step α) : Prop :=
  ∀ p, ∃ errors, (step p).2.errors = p.errors ++ errors ∧
    ws.graph.Accounted root X errors (leaves (step p).1)

namespace Accounts

variable {α β γ : Type} {step : Build.Step α} {next : Build.Step β} {leaves : α → List Expr.Leaf}
  {leaves' : β → List Expr.Leaf} {leaves'' : γ → List Expr.Leaf}

theorem pure {a : α} (h : ws.graph.Accounted root X [] (leaves a)) :
    ws.Accounts root leaves X (Pure.pure a) :=
  fun _ => ⟨[], (List.append_nil _).symm, h⟩

theorem map (h : ws.Accounts root leaves X step) {f : α → β}
    (hf : ∀ a errors, ws.graph.Accounted root X errors (leaves a) →
      ws.graph.Accounted root Y errors (leaves' (f a))) :
    ws.Accounts root leaves' Y (step >>= fun a => Pure.pure (f a)) := by
  intro p
  obtain ⟨errors, herrors, haccounted⟩ := h p
  exact ⟨errors, herrors, hf _ _ haccounted⟩

/-- Steps that have nothing in common, one after another. -/
theorem seq (h : ws.Accounts root leaves X step) (h' : ws.Accounts root leaves' Y next)
    (hdisjoint : ∀ x, X x → ¬ Y x) {P : β → Prop} (hnext : Yields next P) {f : α → β → γ}
    (hf : ∀ a b errors, P b →
      ws.graph.Accounted root (fun x => X x ∨ Y x) errors (leaves a ++ leaves' b) →
        ws.graph.Accounted root Z errors (leaves'' (f a b))) :
    ws.Accounts root leaves'' Z (step >>= fun a => next >>= fun b => Pure.pure (f a b)) := by
  intro p
  obtain ⟨errors, herrors, haccounted⟩ := h p
  obtain ⟨errors', herrors', haccounted'⟩ := h' (step p).2
  refine ⟨errors ++ errors', ?_, hf _ _ _ (hnext _) (haccounted.append haccounted' hdisjoint)⟩
  rw [← List.append_assoc, ← herrors]
  exact herrors'

end Accounts

/-! ## Lists of inputs -/

section Inputs

variable {around : List String}

theorem accounts_nil :
    ws.Accounts root (·.flatMap (Expr.leaves around))
      (fun x => ∃ t ∈ ([] : List SocketId), ws.graph.BuiltAt root x t) (pure []) := by
  refine .pure (.nil ?_)
  rintro x ⟨t, ht, _⟩
  exact absurd ht List.not_mem_nil

/-- Inputs are accounted for one after another, if nothing is met behind two of them. -/
theorem accounts_cons {step : Build.Step (Expr String)} {steps : Build.Step (List (Expr String))}
    (hstep : ws.Accounts root (Expr.leaves around) (ws.graph.BuiltAt root · s) step)
    (hsteps : ws.Accounts root (·.flatMap (Expr.leaves around))
      (fun x => ∃ t ∈ ss, ws.graph.BuiltAt root x t) steps)
    (hunique : ∀ t ∈ ss, ∀ x, ws.graph.BuiltAt root x s → ¬ ws.graph.BuiltAt root x t) :
    ws.Accounts root (·.flatMap (Expr.leaves around))
      (fun x => ∃ t ∈ s :: ss, ws.graph.BuiltAt root x t)
      (step >>= fun e => steps >>= fun es => pure (e :: es)) := by
  have hany : Yields steps fun _ => True := fun _ => trivial
  refine hstep.seq hsteps ?_ hany fun e es errors _ haccounted => ?_
  · rintro x hx ⟨t, ht, hxt⟩
    exact hunique t ht x hx hxt
  · rw [List.flatMap_cons]
    exact haccounted.congr fun x => List.exists_mem_cons_iff ..

theorem inputs_accounts
    (hunique : ss.Pairwise fun s t => ∀ x,
      ws.graph.BuiltAt root x s → ¬ ws.graph.BuiltAt root x t)
    (hss : ∀ s ∈ ss, ws.Accounts root (Expr.leaves around) (ws.graph.BuiltAt root · s)
      (Build.input ws.graph build scope s)) :
    ws.Accounts root (·.flatMap (Expr.leaves around))
      (fun x => ∃ s ∈ ss, ws.graph.BuiltAt root x s) (Build.inputs ws.graph build scope ss) := by
  induction ss with
  | nil => exact accounts_nil
  | cons s rest ih =>
    obtain ⟨hfirst, hrest⟩ := List.pairwise_cons.mp hunique
    exact accounts_cons (hss s List.mem_cons_self)
      (ih hrest fun t ht => hss t (List.mem_cons_of_mem s ht)) hfirst

theorem arms_accounts
    (hunique : ss.Pairwise fun s t => ∀ x,
      ws.graph.BuiltAt root x s → ¬ ws.graph.BuiltAt root x t)
    (hss : ∀ i s, ss[i]? = some s →
      ws.Accounts root (Expr.leaves around) (ws.graph.BuiltAt root · s)
        (Build.arm ws.graph ws.registry build scope type (binders.getD (k + i) []) (k + i) s)) :
    ws.Accounts root (·.flatMap (Expr.leaves around))
      (fun x => ∃ s ∈ ss, ws.graph.BuiltAt root x s)
      (Build.arms ws.graph ws.registry build scope type binders k ss) := by
  induction ss generalizing k with
  | nil => exact accounts_nil
  | cons s rest ih =>
    obtain ⟨hfirst, hrest⟩ := List.pairwise_cons.mp hunique
    refine accounts_cons (hss 0 s rfl) (ih hrest fun i t ht => ?_) hfirst
    rw [Nat.add_right_comm]
    exact hss (i + 1) t ht

theorem length_arms (g : Graph) (r : Registry) (build : Builder) (scope : Scope) (type : String)
    (binders : List (List String)) (k : Nat) (ss : List SocketId) :
    Yields (Build.arms g r build scope type binders k ss) fun es => es.length = ss.length := by
  induction ss generalizing k with
  | nil => exact .pure rfl
  | cons s rest ih =>
    refine Yields.bind (P := fun _ => True) (fun _ => trivial) fun e _ => ?_
    exact (ih (k + 1)).bind fun es hes => .pure (congrArg Nat.succ hes)

theorem pairwise_builtAt (h : ws.graph.WellFormed) (hn : ws.graph.node? n = some node)
    (hroute : ws.graph.Route root n path) :
    node.inputs.Pairwise fun s t => ∀ x,
      ws.graph.BuiltAt root x s → ¬ ws.graph.BuiltAt root x t := by
  have hnodup : node.inputs.Nodup :=
    (Graph.sockets_nodup h hn).sublist (List.sublist_append_left ..)
  refine hnodup.imp_of_mem fun hs ht hne x hxs hxt => ?_
  obtain ⟨k, hs⟩ := (Graph.mem_inputs_iff h hn).mp hs
  obtain ⟨l, ht⟩ := (Graph.mem_inputs_iff h hn).mp ht
  exact hne (hxs.unique h hroute hs ht hxt)

/-- Binding names reports nothing, and puts them around every leaf. -/
theorem bindNames_leaves (around : List String) (names : List (String × Option Ty))
    (body : Expr String) (p : Progress) :
    (bindNames names body p).2.errors = p.errors ∧
      (bindNames names body p).1.leaves around = body.leaves (names.map Prod.fst ++ around) := by
  induction names generalizing body p with
  | nil => exact ⟨rfl, rfl⟩
  | cons q rest ih =>
    obtain ⟨name, field⟩ := q
    cases field with
    | some ty => exact ih (.bind body.tag name ty body) p
    | none => exact ih (.bind body.tag name _ body) _

/-- Joined branches have the names that join them as further leaves, or a hole if there are no
branches. -/
theorem joinArms_leaves (around : List String) (o : SocketId) (es : List (Expr String)) :
    ∃ parts : List Expr.Leaf, (∀ leaf ∈ parts, leaf = ⟨some o, Registry.branchName, false, around⟩ ∨
      es = [] ∧ leaf = ⟨some o, Expr.undefName, false, around⟩) ∧
      ((joinArms o es).leaves around).Perm (parts ++ es.flatMap (Expr.leaves around)) := by
  induction es with
  | nil =>
    refine ⟨[⟨some o, Expr.undefName, false, around⟩], ?_, .rfl⟩
    exact List.forall_mem_singleton.mpr (.inr ⟨rfl, rfl⟩)
  | cons e rest ih =>
    cases rest with
    | nil =>
      refine ⟨[], fun leaf hleaf => absurd hleaf List.not_mem_nil, .of_eq ?_⟩
      exact (List.flatMap_singleton ..).symm
    | cons e' rest =>
      obtain ⟨parts, hparts, hperm⟩ := ih
      refine ⟨⟨some o, Registry.branchName, false, around⟩ :: parts, ?_, ?_⟩
      · refine List.forall_mem_cons.mpr ⟨.inl rfl, fun leaf hleaf => .inl ?_⟩
        exact (hparts leaf hleaf).resolve_right fun hnil => by cases hnil.1
      · have hjoin : joinArms o (e :: e' :: rest) =
            (Expr.var (some o) Registry.branchName).applyAll [e, joinArms o (e' :: rest)] := rfl
        rw [hjoin, Expr.leaves_applyAll]
        refine List.Perm.cons _ ?_
        rw [List.flatMap_cons, List.flatMap_singleton, List.flatMap_cons]
        exact (hperm.append_left _).trans (List.perm_append_comm_assoc ..)

end Inputs

/-! ## Nodes -/

/-- The builder accounts for the expressions of the outputs that feed a node.  Coming back to where
the building began, it reports a cycle. -/
def Covers (ws : Workspace) (root : SocketId) (n : NodeId) (build : Builder) : Prop :=
  ∀ scope o m, ws.graph.At o m .output → ws.graph.Feeds m n →
    (ws.graph.owner? root = some m → build scope o = reportHole (.dangling (.cycle m)) o) ∧
    (ws.graph.owner? root ≠ some m → ∀ path, ws.graph.Route root m path →
      scope.flatten = path.flatMap ws.graph.boundAt → ∀ t, ws.graph.LeadsTo root t m →
        ws.Accounts root (fun e => (e.retag (some t)).leaves scope.flatten)
          (ws.graph.BuiltIn root · m) (build scope o))

section Node

variable (h : ws.graph.WellFormed) (hn : ws.graph.node? n = some node)
  (hroute : ws.graph.Route root n path) (hbuild : ws.Covers root n build)

include hroute

theorem hole_accounts (hs : ws.graph.At s n (.input k)) (hvacant : ws.graph.Vacant s) :
    ws.Accounts root (Expr.leaves (path.flatMap ws.graph.boundAt)) (ws.graph.BuiltAt root · s)
      (pure (hole s)) := by
  have hp : ws.graph.peer? s = none := by
    obtain ⟨_, _, _, _, _, _, hp⟩ := hvacant
    exact hp
  refine .pure ((Graph.Accounted.singleton (.gap hs hvacant hroute) rfl rfl).congr fun x => ?_)
  rw [Graph.builtAt_unlinked hp]
  exact and_iff_left hvacant

include h hbuild

/-- What feeds an input is built inside the names that are bound there. -/
theorem linked_accounts (hs : ws.graph.At s n (.input k)) (hp : ws.graph.peer? s = some o)
    (hscope : scope.flatten = (s :: path).flatMap ws.graph.boundAt) :
    ws.Accounts root (Expr.leaves scope.flatten) (ws.graph.BuiltAt root · s)
      (Build.input ws.graph build scope s) := by
  obtain ⟨m, ho, _, hfeeds⟩ := Graph.exists_feeds h hs hp
  obtain ⟨hback, hother⟩ := hbuild scope o m ho hfeeds
  rw [Build.input, hp]
  by_cases hm : ws.graph.owner? root = some m
  · intro p
    simp only [hback hm]
    refine ⟨[.dangling (.cycle m)], rfl, ?_⟩
    have hstands := Graph.Stands.back hs hp ho hm hroute
      (List.mem_singleton.mpr (rfl : TypeError.dangling (.cycle m) = _))
    rw [← hscope] at hstands
    refine (Graph.Accounted.singleton hstands rfl ?_).congr fun x => Graph.builtAt_back hp ho hm
    simp [Graph.cycleReports, hm, TypeError.isCycle]
  · intro p
    have hleads : ws.graph.LeadsTo root s m := .inr (.inr ⟨o, hp, ho⟩)
    obtain ⟨errors, herrors, haccounted⟩ :=
      hother hm _ (.input hroute hs hp ho hm) hscope s hleads p
    exact ⟨errors, herrors, haccounted.congr fun x => Graph.builtAt_linked hp ho hm⟩

include hn

/-- An input that binds no names, and does not belong to the value that cases look at. -/
theorem input_accounts (hs : ws.graph.At s n (.input k))
    (hscope : scope.flatten = path.flatMap ws.graph.boundAt)
    (hbound : node.block.boundAt (.input k) = []) (hvacant : node.block.isScrutinee k = false) :
    ws.Accounts root (Expr.leaves scope.flatten) (ws.graph.BuiltAt root · s)
      (Build.input ws.graph build scope s) := by
  cases hp : ws.graph.peer? s with
  | none =>
    rw [Build.input, hp, hscope]
    exact hole_accounts hroute hs ⟨n, k, node, hs, hn, hvacant, hp⟩
  | some o =>
    refine linked_accounts h hroute hbuild hs hp ?_
    rw [List.flatMap_cons, Graph.boundAt_eq hn hs, hbound, hscope, List.nil_append]

theorem arm_accounts (hblock : node.block = .caseOf type binders)
    (hs : ws.graph.At s n (.input (k + 1)))
    (hscope : scope.flatten = path.flatMap ws.graph.boundAt) :
    ws.Accounts root (Expr.leaves scope.flatten) (ws.graph.BuiltAt root · s)
      (Build.arm ws.graph ws.registry build scope type (binders.getD k []) k s) := by
  rw [Build.arm]
  cases hp : ws.graph.peer? s with
  | none =>
    rw [hscope]
    exact hole_accounts hroute hs ⟨n, k + 1, node, hs, hn, by rw [hblock]; rfl, hp⟩
  | some o =>
    have hinner : (binders.getD k [] :: scope).flatten =
        (s :: path).flatMap ws.graph.boundAt := by
      rw [List.flatten_cons, List.flatMap_cons, Graph.boundAt_eq hn hs, hblock, hscope]
      rfl
    intro p
    obtain ⟨errors, herrors, haccounted⟩ := linked_accounts h hroute hbuild hs hp hinner p
    obtain ⟨hsame, hleaves⟩ := bindNames_leaves scope.flatten
      (typedNames ws.registry type k (binders.getD k []))
      (Build.input ws.graph build (binders.getD k [] :: scope) s p).1
      (Build.input ws.graph build (binders.getD k [] :: scope) s p).2
    refine ⟨errors, hsame.trans herrors, ?_⟩
    rw [map_fst_typedNames] at hleaves
    exact hleaves.symm ▸ haccounted

/-- The value that cases look at comes with the name of the type.  If nothing feeds the input, there
is no hole for it. -/
theorem scrutinee_accounts (hblock : node.block = .caseOf type binders)
    (hs : ws.graph.At s n (.input 0)) (hscope : scope.flatten = path.flatMap ws.graph.boundAt)
    (ho : ws.graph.LeadsTo root o n) :
    ws.Accounts root (Expr.leaves scope.flatten) (ws.graph.BuiltAt root · s)
      (Build.scrutinee ws.graph build scope type o s) := by
  have htype : ∃ path, ws.graph.Stands root [] (.part n) path
      ⟨some o, type, true, scope.flatten⟩ :=
    ⟨path, hscope ▸ .part hn hroute ho (.typeName hblock)⟩
  have hmark : ∃ path, ws.graph.Stands root [] (.part n) path
      ⟨some o, Registry.scrutineeName, false, scope.flatten⟩ :=
    ⟨path, hscope ▸ .part hn hroute ho (.combinator hblock List.mem_cons_self)⟩
  rw [Build.scrutinee]
  cases hp : ws.graph.peer? s with
  | none =>
    refine .pure ((Graph.Accounted.parts (List.forall_mem_singleton.mpr htype)).congr fun x => ?_)
    rw [Graph.builtAt_unlinked hp]
    refine iff_of_false ?_ id
    rintro ⟨_, _, _, _, hs', hn', hscrutinee, _⟩
    obtain ⟨rfl, hrole⟩ := hs.unique hs'
    cases hrole
    cases hn.symm.trans hn'
    rw [hblock] at hscrutinee
    cases hscrutinee
  | some o' =>
    have hinner : scope.flatten = (s :: path).flatMap ws.graph.boundAt := by
      rw [List.flatMap_cons, Graph.boundAt_eq hn hs, hblock, hscope]
      rfl
    refine (linked_accounts h hroute hbuild hs hp hinner).map fun value errors haccounted => ?_
    refine haccounted.add_parts (List.forall_mem_cons.mpr ⟨hmark,
      List.forall_mem_singleton.mpr htype⟩) ?_
    rw [Expr.leaves_applyAll]
    refine List.Perm.cons _ ?_
    rw [List.flatMap_cons, List.flatMap_singleton]
    exact List.perm_append_singleton _ _

omit hbuild in
theorem own_accounted {text : String} {isValue : Bool} {errors : List TypeError}
    {leaves : List Expr.Leaf} (hscope : scope.flatten = path.flatMap ws.graph.boundAt)
    (ho : ws.graph.LeadsTo root o n) (htext : node.Shows scope.flatten [] text isValue)
    (hleaves : ws.graph.Accounted root (fun x => ∃ s ∈ node.inputs, ws.graph.BuiltAt root x s)
      errors leaves) :
    ws.graph.Accounted root (ws.graph.BuiltIn root · n) errors
      (⟨some o, text, isValue, scope.flatten⟩ :: leaves) := by
  rw [hscope] at htext ⊢
  have hown := Graph.Accounted.singleton (.node hn hroute ho htext) rfl rfl
  refine (hown.append hleaves ?_).congr fun x => ?_
  · rintro _ rfl ⟨s, hs, hself⟩
    obtain ⟨k, hs⟩ := (Graph.mem_inputs_iff h hn).mp hs
    exact hroute.not_builtAt_self h hs hself
  · exact Graph.builtIn_iff h hn

/-- Cases are the evaluation of branches, which are joined to one another. -/
theorem caseExpr_accounts (hblock : node.block = .caseOf type binders)
    (hscope : scope.flatten = path.flatMap ws.graph.boundAt) (ho : ws.graph.LeadsTo root o n)
    (ht : ws.graph.LeadsTo root t n) :
    ws.Accounts root (fun e => (e.retag (some t)).leaves scope.flatten)
      (ws.graph.BuiltIn root · n)
      (Build.caseExpr ws.graph ws.registry build scope type binders o node.inputs) := by
  have hinputs : ∀ i s, node.inputs[i]? = some s → ws.graph.At s n (.input i) :=
    fun i s hs => (Graph.At.input_eq h hn).mpr hs
  have hpairwise := pairwise_builtAt h hn hroute
  cases hlist : node.inputs with
  | nil =>
    refine .pure (own_accounted h hn hroute hscope ht (.noInputs hblock hlist) (.nil ?_))
    rintro x ⟨s, hs, _⟩
    rw [hlist] at hs
    exact absurd hs List.not_mem_nil
  | cons s branches =>
    rw [hlist] at hinputs hpairwise
    obtain ⟨hfirst, hrest⟩ := List.pairwise_cons.mp hpairwise
    have harms : ∀ i b, branches[i]? = some b → ws.Accounts root (Expr.leaves scope.flatten)
        (ws.graph.BuiltAt root · b)
        (Build.arm ws.graph ws.registry build scope type (binders.getD (0 + i) []) (0 + i) b) := by
      intro i b hb
      rw [Nat.zero_add]
      exact arm_accounts h hn hroute hbuild hblock (hinputs (i + 1) b hb) hscope
    have hlengths := length_arms ws.graph ws.registry build scope type binders 0 branches
    refine (scrutinee_accounts h hn hroute hbuild hblock (hinputs 0 s rfl) hscope ho).seq
      (arms_accounts hrest harms) ?_ hlengths fun value es errors hlength haccounted => ?_
    · rintro x hx ⟨b, hb, hxb⟩
      exact hfirst b hb x hx hxb
    · obtain ⟨parts, hparts, hperm⟩ := joinArms_leaves scope.flatten o es
      have hshown : ∀ leaf ∈ parts, ∃ path, ws.graph.Stands root [] (.part n) path leaf := by
        intro leaf hleaf
        refine ⟨path, ?_⟩
        rw [hscope] at hparts
        rcases hparts leaf hleaf with rfl | ⟨rfl, rfl⟩
        · exact .part hn hroute ho (.combinator hblock (List.mem_cons_of_mem _ List.mem_cons_self))
        · refine .part hn hroute ho (.noBranches hblock ?_)
          rw [hlist, List.length_cons, ← hlength]
          exact Nat.le_refl 1
      have hwhole := own_accounted h hn hroute hscope ho (.evaluation hblock)
        (haccounted.congr fun x => by rw [hlist]; exact List.exists_mem_cons_iff ..)
      refine hwhole.add_parts hshown (List.Perm.trans ?_ List.perm_middle.symm)
      refine List.Perm.cons _ ?_
      exact (hperm.append_left _).trans (List.perm_append_comm_assoc ..)

theorem apply_accounts (hhead : node.block.head? = some name)
    (hscope : scope.flatten = path.flatMap ws.graph.boundAt) (ho : ws.graph.LeadsTo root o n)
    (ht : ws.graph.LeadsTo root t n) :
    ws.Accounts root (fun e => (e.retag (some t)).leaves scope.flatten)
      (ws.graph.BuiltIn root · n)
      (Build.inputs ws.graph build scope node.inputs >>= fun args =>
        pure ((Expr.var (some o) name).applyAll args)) := by
  have hcase : ∀ k, node.block.boundAt (.input k) = [] ∧ node.block.isScrutinee k = false := by
    intro k
    cases hblock : node.block with
    | caseOf type binders =>
      rw [hblock] at hhead
      cases hhead
    | _ => exact ⟨rfl, rfl⟩
  have hinputs : ∀ s ∈ node.inputs, ws.Accounts root (Expr.leaves scope.flatten)
      (ws.graph.BuiltAt root · s) (Build.input ws.graph build scope s) := by
    intro s hs
    obtain ⟨k, hk⟩ := (Graph.mem_inputs_iff h hn).mp hs
    exact input_accounts h hn hroute hbuild hk hscope (hcase k).1 (hcase k).2
  refine (inputs_accounts (pairwise_builtAt h hn hroute) hinputs).map
    fun args errors haccounted => ?_
  obtain ⟨tag, htag, hleaves⟩ :=
    Expr.leaves_retag_applyAll scope.flatten (some o) (some t) name args
  rw [hleaves]
  rcases List.mem_pair.mp htag with rfl | rfl
  · exact own_accounted h hn hroute hscope ho (.head hhead) haccounted
  · exact own_accounted h hn hroute hscope ht (.head hhead) haccounted

omit hbuild in
theorem localVar_accounts (hsound : ws.Sound) (hblock : node.block = .localVar name)
    (hscope : scope.flatten = path.flatMap ws.graph.boundAt) (ht : ws.graph.LeadsTo root t n) :
    ws.Accounts root (fun e => (e.retag (some t)).leaves scope.flatten)
      (ws.graph.BuiltIn root · n)
      (if scope.any (·.contains name) then pure (.var (some o) name)
        else reportHole (.invalidSignature (.unboundLocal name)) o) := by
  have hself : ∀ x, ws.graph.BuiltIn root x n ↔ x = .node n := by
    intro x
    rw [Graph.builtIn_iff h hn, localVar_inputs (hsound.nodes n node hn) hblock]
    simp
  by_cases hmem : name ∈ scope.flatten
  · rw [if_pos (by simpa using hmem)]
    have hshows : node.Shows scope.flatten [] name false := .bound hblock hmem
    rw [hscope] at hshows ⊢
    exact .pure ((Graph.Accounted.singleton (.node hn hroute ht hshows) rfl rfl).congr hself)
  · rw [if_neg (by simpa using hmem)]
    have hshows : node.Shows scope.flatten [.invalidSignature (.unboundLocal name)]
        Expr.undefName false := .unbound hblock hmem List.mem_cons_self
    rw [hscope] at hshows ⊢
    intro p
    exact ⟨_, rfl, (Graph.Accounted.singleton (.node hn hroute ht hshows) rfl rfl).congr hself⟩

theorem node_accounts (hsound : ws.Sound) (hclosed : ws.LiteralsClosed)
    (hscope : scope.flatten = path.flatMap ws.graph.boundAt) (ho : ws.graph.LeadsTo root o n)
    (ht : ws.graph.LeadsTo root t n) :
    ws.Accounts root (fun e => (e.retag (some t)).leaves scope.flatten)
      (ws.graph.BuiltIn root · n)
      (Build.node ws.graph ws.registry build scope o node) := by
  have hnothing : node.inputs = [] →
      ws.graph.Accounted root (fun x => ∃ s ∈ node.inputs, ws.graph.BuiltAt root x s) [] [] := by
    intro hinputs
    refine .nil ?_
    rintro x ⟨s, hs, _⟩
    rw [hinputs] at hs
    exact absurd hs List.not_mem_nil
  rw [Build.node]
  cases hblock : node.block with
  | literal ty value =>
    exact .pure (own_accounted h hn hroute hscope ht (.value hblock)
      (hnothing (hclosed n node ty value hn hblock)))
  | function name => exact apply_accounts h hn hroute hbuild (by rw [hblock]; rfl) hscope ho ht
  | ctor name => exact apply_accounts h hn hroute hbuild (by rw [hblock]; rfl) hscope ho ht
  | list items => exact apply_accounts h hn hroute hbuild (by rw [hblock]; rfl) hscope ho ht
  | localVar name => exact localVar_accounts h hn hroute hsound hblock hscope ht
  | caseOf type binders =>
    exact caseExpr_accounts h hn hroute hbuild hblock hscope ho ht

end Node

/-! ## Outputs -/

theorem output_active (h : ws.graph.WellFormed) (hs : ws.graph.owner? s = some n)
    (hactive : n ∈ active) :
    Build.output ws.graph ws.registry active scope s = reportHole (.dangling (.cycle n)) s := by
  obtain ⟨_, hs⟩ := Graph.owner?_eq_some_iff.mp hs
  obtain ⟨node, hn⟩ := hs.node? h
  obtain ⟨socket, hsocket, rfl, _⟩ := hs
  rw [Build.output]
  simp only [hsocket]
  split
  · next hnone => cases hn.symm.trans hnone
  · exact dif_pos hactive

/-- The nodes on the way from where the building began.  Every one of them feeds another, except
for that node itself. -/
structure Trail (ws : Workspace) (root : SocketId) (active : List NodeId) (n : NodeId) : Prop where
  new : n ∉ active
  began : ∀ r, ws.graph.owner? root = some r → r ∈ n :: active
  feeds : ∀ a ∈ n :: active, ws.graph.owner? root ≠ some a → ∃ b ∈ active, ws.graph.Feeds a b

namespace Trail

theorem nil (hr : ws.graph.owner? root = some n) : ws.Trail root [] n := by
  refine ⟨List.not_mem_nil, fun r hr' => ?_, fun a ha hne => ?_⟩
  · cases hr.symm.trans hr'
    exact List.mem_cons_self
  · rw [List.mem_singleton.mp ha] at hne
    exact absurd hr hne

/-- A node feeds only one other, so that the only node to meet again is where the building began. -/
theorem eq_root (h : ws.graph.WellFormed) (htrail : ws.Trail root active n)
    (hfeeds : ws.graph.Feeds m n) (hm : m ∈ n :: active) : ws.graph.owner? root = some m := by
  by_contra hne
  obtain ⟨b, hb, hmb⟩ := htrail.feeds m hm hne
  rw [hmb.unique h hfeeds] at hb
  exact htrail.new hb

theorem cons (h : ws.graph.WellFormed) (htrail : ws.Trail root active n)
    (hfeeds : ws.graph.Feeds m n) (hm : ws.graph.owner? root ≠ some m) :
    ws.Trail root (n :: active) m := by
  refine ⟨fun hmem => hm (htrail.eq_root h hfeeds hmem), fun r hr => ?_, fun a ha hne => ?_⟩
  · exact List.mem_cons_of_mem m (htrail.began r hr)
  · rcases List.mem_cons.mp ha with rfl | ha
    · exact ⟨n, List.mem_cons_self, hfeeds⟩
    · obtain ⟨b, hb, hab⟩ := htrail.feeds a ha hne
      exact ⟨b, List.mem_cons_of_mem n hb, hab⟩

end Trail

/-- Every node on the way is built once, and what feeds it is built inside of it. -/
theorem output_accounts (hsound : ws.Sound) (hclosed : ws.LiteralsClosed)
    (htrail : ws.Trail root active n) (hroute : ws.graph.Route root n path)
    (hscope : scope.flatten = path.flatMap ws.graph.boundAt) (hs : ws.graph.owner? s = some n)
    (hleads : ws.graph.LeadsTo root s n) (ht : ws.graph.LeadsTo root t n) :
    ws.Accounts root (fun e => (e.retag (some t)).leaves scope.flatten)
      (ws.graph.BuiltIn root · n) (Build.output ws.graph ws.registry active scope s) := by
  induction hk : (Search.unseen ws.graph.nodeIds active).length using Nat.strongRecOn
    generalizing n s t active scope path with
  | ind k ih =>
    have h := hsound.graph
    obtain ⟨node, hn⟩ := (Graph.owner?_eq_some_iff.mp hs).elim fun _ hs => hs.node? h
    have hlive : n ∈ ws.graph.nodeIds := Graph.mem_nodeIds.mpr ⟨node, hn⟩
    have hbuild : ws.Covers root n fun scope s =>
        Build.output ws.graph ws.registry (n :: active) scope s := by
      intro scope o m ho hfeeds
      have howner : ws.graph.owner? o = some m := Graph.owner?_eq_some_iff.mpr ⟨_, ho⟩
      refine ⟨fun hm => ?_, fun hm path hroute hscope t ht => ?_⟩
      · exact output_active h howner (htrail.began m hm)
      · exact ih _ (hk ▸ Search.length_unseen_cons_lt hlive htrail.new) (htrail.cons h hfeeds hm)
          hroute hscope howner (.inr (.inl ho)) ht rfl
    rw [output_new hn hs htrail.new]
    refine (node_accounts h hn hroute hbuild hsound hclosed hscope hleads ht).map
      fun e errors haccounted => ?_
    rw [Expr.retag_retag]
    exact haccounted

/-! ## The whole expression -/

theorem build_accounted (h : ws.Visited) (hr : ws.graph.owner? root = some r) :
    ws.graph.Accounted root (ws.graph.BuiltIn root · r) (ws.build root).errors
      ((ws.build root).expr.leaves []) := by
  obtain ⟨node, hn⟩ := (Graph.owner?_eq_some_iff.mp hr).elim fun _ hr => hr.node? h.sound.graph
  have hexpr : (ws.build root).expr.retag (some root) = (ws.build root).expr := by
    refine Expr.retag_self ?_
    show (Build.output ws.graph ws.registry [] [] root { supply := ws.supply }).1.tag = some root
    rw [output_new hn hr List.not_mem_nil]
    exact Expr.tag_retag ..
  have hleads : ws.graph.LeadsTo root root r := .inl ⟨rfl, hr⟩
  have hscope : ([] : Scope).flatten = ([] : List SocketId).flatMap ws.graph.boundAt := rfl
  obtain ⟨errors, herrors, haccounted⟩ := output_accounts h.sound h.literalsClosed (.nil hr)
    (.root hr) hscope hr hleads hleads { supply := ws.supply }
  obtain rfl : (ws.build root).errors = errors := herrors
  rw [← hexpr]
  exact haccounted

/-- Why a leaf that is tagged with a socket is a hole: nothing feeds the input, it leads back to
where the building began, a pattern variable is not bound, or cases have no branches.  A node can
also have the name of a hole itself. -/
inductive HoleReason (ws : Workspace) (root : SocketId) (r : NodeId) (s : SocketId) : Prop
  | gap {n : NodeId} (hs : ws.graph.owner? s = some n) (hn : ws.graph.Upstream n r)
      (hvacant : ws.graph.Vacant s)
  | cycle (hp : ws.graph.peer? s = some root)
      (herror : .dangling (.cycle r) ∈ (ws.build root).errors)
  | unbound {n : NodeId} {node : Node} {name : String} (hn : ws.graph.Upstream n r)
      (hs : ws.graph.LeadsTo root s n) (hnode : ws.graph.node? n = some node)
      (hblock : node.block = .localVar name)
      (herror : .invalidSignature (.unboundLocal name) ∈ (ws.build root).errors)
  | noBranches {n : NodeId} {node : Node} {type : String} {binders : List (List String)}
      (hn : ws.graph.Upstream n r) (hs : ws.graph.LeadsTo root s n)
      (hnode : ws.graph.node? n = some node) (hblock : node.block = .caseOf type binders)
      (hinputs : node.inputs.length ≤ 1)
  | name {n : NodeId} {node : Node} (hn : ws.graph.Upstream n r) (hs : ws.graph.LeadsTo root s n)
      (hnode : ws.graph.node? n = some node)
      (hname : node.block.head? = some Expr.undefName ∨
        node.block.localName? = some Expr.undefName)

section Leaves

variable {x : Origin} {leaf : Expr.Leaf} {errors : List TypeError}
  (hroot : ws.graph.At root r .output)
include hroot

theorem stands_gap_iff (hvacant : ws.graph.Vacant s)
    (hx : ws.graph.Stands root errors x path leaf) : leaf.isHoleAt s = true ↔ x = .gap s := by
  obtain ⟨n, k, _, hs, _, _, hp⟩ := hvacant
  have hleads : ∀ m, ¬ ws.graph.LeadsTo root s m := by
    rintro m (⟨rfl, _⟩ | ho | ⟨o, hp', _⟩)
    · cases (hroot.unique hs).2
    · cases (ho.unique hs).2
    · cases hp.symm.trans hp'
  cases hx with
  | node _ _ hs' _ =>
    refine iff_of_false (fun hhole => ?_) (by simp)
    cases Expr.Leaf.tag_of_isHoleAt hhole
    exact hleads _ hs'
  | part _ _ hs' _ =>
    refine iff_of_false (fun hhole => ?_) (by simp)
    cases Expr.Leaf.tag_of_isHoleAt hhole
    exact hleads _ hs'
  | gap => simp [Expr.Leaf.isHoleAt]
  | back _ hp' =>
    refine iff_of_false (fun hhole => ?_) (by simp)
    cases Expr.Leaf.tag_of_isHoleAt hhole
    cases hp.symm.trans hp'
  | missing hgone =>
    obtain ⟨socket, hsocket, _⟩ := hroot
    cases hgone.symm.trans hsocket

theorem stands_hole (h : ws.graph.WellFormed)
    (hx : ws.graph.Stands root (ws.build root).errors x path leaf)
    (hvalue : leaf.isValue = false) (htext : leaf.text = Expr.undefName) :
    ∃ s, leaf.tag = some s ∧ ws.HoleReason root r s := by
  have hr : ws.graph.owner? root = some r := Graph.owner?_eq_some_iff.mpr ⟨_, hroot⟩
  cases hx with
  | node hn hroute hs hshows =>
    have hup := hroute.upstream h hr
    refine ⟨_, rfl, ?_⟩
    cases hshows with
    | value => cases hvalue
    | head hhead => exact .name hup hs hn (.inl (htext ▸ hhead))
    | bound hblock => exact .name hup hs hn (.inr (by rw [hblock, ← htext]; rfl))
    | unbound hblock _ herror => exact .unbound hup hs hn hblock herror
    | evaluation => cases (by decide : Registry.evaluateName ≠ Expr.undefName) htext
    | noInputs hblock hinputs => exact .noBranches hup hs hn hblock (by simp [hinputs])
  | part hn hroute hs hshows =>
    have hup := hroute.upstream h hr
    refine ⟨_, rfl, ?_⟩
    cases hshows with
    | typeName => cases hvalue
    | combinator _ hname =>
      obtain rfl : _ = Expr.undefName := htext
      exact absurd hname (by decide)
    | noBranches hblock hinputs => exact .noBranches hup hs hn hblock hinputs
  | gap hs hvacant hroute =>
    exact ⟨_, rfl, .gap (Graph.owner?_eq_some_iff.mpr ⟨_, hs⟩) (hroute.upstream h hr) hvacant⟩
  | back hs hp ho hr' hroute herror =>
    cases hr.symm.trans hr'
    obtain rfl := ho.output_unique h hroot
    exact ⟨_, rfl, .cycle hp herror⟩
  | missing hgone =>
    obtain ⟨socket, hsocket, _⟩ := hroot
    cases hgone.symm.trans hsocket

end Leaves

/-- If a property holds of the leaves of one origin only, they are as many as it occurs. -/
theorem countP_eq_count {origins : List Origin} {leaves : List Expr.Leaf}
    {R : Origin → Expr.Leaf → Prop} (h : List.Forall₂ R origins leaves) {P : Expr.Leaf → Bool}
    {x : Origin} (hP : ∀ y leaf, R y leaf → (P leaf = true ↔ y = x)) :
    leaves.countP P = origins.count x := by
  induction h with
  | nil => rfl
  | @cons y leaf _ _ hy _ ih =>
    rw [List.countP_cons, List.count_cons, ih]
    simp [hP y leaf hy]

/-- The expression of an output covers what is upstream of it once.  Its leaves are built for the
nodes upstream, one leaf for each as the node itself, besides the other parts of cases and the
holes.  A cycle is reported if the node of the output is on one, and then once.  Every input
upstream that nothing feeds has one hole, unless it is for the value that cases look at, and every
other hole has a reason as well. -/
theorem build_covers (h : ws.Visited) (hroot : ws.graph.At root r .output) :
    (∃ origins : List Origin,
      List.Forall₂ (fun x leaf => ∃ path, ws.graph.Stands root (ws.build root).errors x path leaf)
        origins ((ws.build root).expr.leaves []) ∧
      ∀ m, (ws.graph.Upstream m r → origins.count (.node m) = 1) ∧
        (¬ ws.graph.Upstream m r → origins.count (.node m) = 0)) ∧
    (Relation.TransGen ws.graph.Feeds r r →
      (ws.build root).errors.filter TypeError.isCycle = [.dangling (.cycle r)]) ∧
    (¬ Relation.TransGen ws.graph.Feeds r r →
      (ws.build root).errors.filter TypeError.isCycle = []) ∧
    (∀ s m, ws.graph.owner? s = some m → ws.graph.Upstream m r → ws.graph.Vacant s →
      ((ws.build root).expr.leaves []).countP (·.isHoleAt s) = 1) ∧
    ∀ leaf ∈ (ws.build root).expr.leaves [], leaf.isValue = false → leaf.text = Expr.undefName →
      ∃ s, leaf.tag = some s ∧ ws.HoleReason root r s := by
  have hg := h.sound.graph
  have hr : ws.graph.owner? root = some r := Graph.owner?_eq_some_iff.mpr ⟨_, hroot⟩
  obtain ⟨origins, haccount⟩ := build_accounted h hr
  refine ⟨⟨origins, haccount.stands, fun m => ?_⟩, fun hcycle => ?_, fun hcycle => ?_,
    fun s m hs hm hvacant => ?_, fun leaf hleaf => ?_⟩
  · rw [← Graph.builtIn_node_iff hg hr]
    exact haccount.count rfl
  · obtain ⟨s, hs⟩ := (Graph.exists_builtIn_back_iff hg hr).mpr hcycle
    have hunique : ∀ t, .back t ∈ origins → t = s := fun t ht =>
      Graph.BuiltIn.back_unique hg ((haccount.mem _).mp (List.mem_filter.mpr ⟨ht, rfl⟩)) hs
    have hcycles := haccount.cycles
    rw [Graph.cycleReports_eq hr hunique, (haccount.count rfl).1 hs] at hcycles
    exact List.perm_singleton.mp hcycles
  · have hnone : ∀ t, .back t ∉ origins := fun t ht => hcycle <|
      (Graph.exists_builtIn_back_iff hg hr).mp
        ⟨t, (haccount.mem _).mp (List.mem_filter.mpr ⟨ht, rfl⟩)⟩
    have hcycles := haccount.cycles
    rw [Graph.cycleReports_eq (s := root) hr fun t ht => absurd ht (hnone t),
      List.count_eq_zero.mpr (hnone root)] at hcycles
    exact List.perm_nil.mp hcycles
  · have henters : ws.graph.Enters root (.gap s) s := ⟨rfl, hvacant⟩
    obtain ⟨n, k, _, hk, _⟩ := id hvacant
    have howner : ws.graph.owner? s = some n := Graph.owner?_eq_some_iff.mpr ⟨_, hk⟩
    cases hs.symm.trans howner
    rw [countP_eq_count (x := .gap s) haccount.stands fun x leaf hx =>
      hx.elim fun path hx => stands_gap_iff hroot hvacant hx]
    exact (haccount.count rfl).1 ((henters.builtIn_iff hg hr hk).mpr hm)
  · obtain ⟨x, path, hx⟩ := Graph.Accounted.exists_stands ⟨origins, haccount⟩ hleaf
    exact stands_hole hroot hg hx

/-- A list with two items, the first of which is a list of the whole. -/
def listAroundItself : List Action :=
  [.addNode (.list 2), .addNode (.list 1), .attach 3 1, .attach 0 4]

/-- The inner list is built once.  There is a hole where it leads back to the outer one, and one for
the second item. -/
theorem build_covers_listAroundItself :
    ∃ ws : Workspace, empty.runAll listAroundItself = some ws ∧ ws.Visited ∧
      ws.graph.At 0 0 .output ∧ ws.graph.Upstream 1 0 ∧
      Relation.TransGen ws.graph.Feeds 0 0 ∧ ws.graph.owner? 2 = some 0 ∧ ws.graph.Vacant 2 ∧
      ((ws.build 0).expr.leaves []).map (fun leaf => (leaf.tag, leaf.text)) =
        [(some 0, "list"), (some 3, "list"), (some 4, "undef"), (some 2, "undef")] ∧
      (∃ origins : List Origin,
        List.Forall₂ (fun x leaf => ∃ path, ws.graph.Stands 0 (ws.build 0).errors x path leaf)
          origins ((ws.build 0).expr.leaves []) ∧ origins.count (.node 1) = 1) ∧
      (ws.build 0).errors.filter TypeError.isCycle = [.dangling (.cycle 0)] ∧
      ((ws.build 0).expr.leaves []).countP (·.isHoleAt 2) = 1 := by
  have hchecks : (empty.runAll listAroundItself).any (fun ws =>
      ((ws.build 0).expr.leaves []).map (fun leaf => (leaf.tag, leaf.text)) =
        [(some 0, "list"), (some 3, "list"), (some 4, "undef"), (some 2, "undef")] &&
      ws.graph.peer? 1 = some 3 && ws.graph.peer? 4 = some 0 && ws.graph.peer? 2 = none &&
      (ws.graph.socket? 0).any (fun socket => socket.node = 0 && socket.role = .output) &&
      (ws.graph.socket? 1).any (fun socket => socket.node = 0 && socket.role = .input 0) &&
      (ws.graph.socket? 2).any (fun socket => socket.node = 0 && socket.role = .input 1) &&
      (ws.graph.socket? 3).any (fun socket => socket.node = 1 && socket.role = .output) &&
      (ws.graph.socket? 4).any (fun socket => socket.node = 1 && socket.role = .input 0)) =
      true := by cbv
  obtain ⟨ws, hrun, hchecks⟩ := (Option.any_eq_true _ _).mp hchecks
  simp only [Bool.and_eq_true, decide_eq_true_eq] at hchecks
  obtain ⟨⟨⟨⟨⟨⟨⟨⟨hleaves, hinner⟩, hback⟩, hvacant⟩, h0⟩, h1⟩, h2⟩, h3⟩, h4⟩ := hchecks
  have hplace : ∀ {s n : Nat} {role : Role}, (ws.graph.socket? s).any (fun socket =>
      socket.node = n && socket.role = role) = true → ws.graph.At s n role := by
    intro s n role hs
    obtain ⟨socket, hsocket, hplace⟩ := (Option.any_eq_true _ _).mp hs
    exact ⟨socket, hsocket, by simpa using hplace⟩
  have hvisited : ws.Visited := (Reachable.empty.runAll hrun).visited
  have hg := hvisited.sound.graph
  have hroot : ws.graph.At 0 0 .output := hplace h0
  obtain ⟨_, _, h10, hfeeds⟩ := Graph.exists_feeds_of_output hg hinner (hplace h3)
  obtain ⟨rfl, _⟩ := h10.unique (hplace h1)
  obtain ⟨_, _, h41, hfeeds'⟩ := Graph.exists_feeds_of_output hg hback hroot
  obtain ⟨rfl, _⟩ := h41.unique (hplace h4)
  have hopen : ws.graph.Vacant 2 := by
    obtain ⟨node, hn⟩ := (hplace h2).node? hg
    refine ⟨_, _, node, hplace h2, hn, ?_, hvacant⟩
    cases node.block <;> rfl
  have howner : ws.graph.owner? 2 = some 0 := Graph.owner?_eq_some_iff.mpr ⟨_, hplace h2⟩
  have hcycle : Relation.TransGen ws.graph.Feeds 0 0 := .tail (.single hfeeds') hfeeds
  obtain ⟨⟨origins, hstands, hcount⟩, hreport, _, hholes, _⟩ := build_covers hvisited hroot
  exact ⟨ws, hrun, hvisited, hroot, .single hfeeds, hcycle, howner, hopen, hleaves,
    ⟨origins, hstands, (hcount 1).1 (.single hfeeds)⟩, hreport hcycle,
    hholes 2 0 howner .refl hopen⟩

end Workspace

end BlockGraph
