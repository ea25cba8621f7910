import BlockGraph.Proofs.Expr.Context
import BlockGraph.Proofs.Workspace.Signatures

/-!
# Built expressions are well typed

Every expression that the builder makes has the type of the socket that it is made
for, in each context that encloses the place where it stands.  The proof follows the
builder: what holds of the expressions that feed a node holds of the node's own.  A
node's sockets are an instance of the signature of its block, so the name that the
block applies has the type that the arguments ask for.
-/

namespace BlockGraph

/-! ## Types of heads -/

namespace TyTerm

variable {ν : Type} {params params' : List (TyTerm ν)} {t t' : TyTerm ν}

theorem curried_inj (hlen : params.length = params'.length)
    (h : curried params t = curried params' t') : params = params' ∧ t = t' := by
  induction params generalizing params' with
  | nil =>
    cases params' with
    | nil => exact ⟨rfl, h⟩
    | cons _ _ => cases hlen
  | cons x rest ih =>
    cases params' with
    | nil => cases hlen
    | cons y rest' =>
      obtain ⟨rfl, hrest⟩ := fn.inj h
      obtain ⟨rfl, rfl⟩ := ih (Nat.succ.inj hlen) hrest
      exact ⟨rfl, rfl⟩

end TyTerm

theorem Expr.tag_applyAll {ν : Type} (f : Expr ν) (args : List (Expr ν)) :
    (f.applyAll args).tag = f.tag := by
  induction args generalizing f with
  | nil => rfl
  | cons x rest ih => exact ih (.app f.tag f x)

theorem Expr.retag_self {ν : Type} {e : Expr ν} {tag : Option SocketId} (h : e.tag = tag) :
    e.retag tag = e := by
  subst h
  cases e <;> rfl

/-! ## Steps of the builder -/

/-- What a step of the builder returns satisfies `P`, whatever was reported before. -/
def Build.Yields {α : Type} (step : Build.Step α) (P : α → Prop) : Prop :=
  ∀ p, P (step p).1

namespace Build.Yields

variable {α β : Type} {P Q : α → Prop} {R : β → Prop} {step : Step α} {f : α → Step β} {a : α}

theorem pure (h : P a) : Yields (Pure.pure a) P :=
  fun _ => h

theorem bind (h : Yields step P) (hf : ∀ a, P a → Yields (f a) R) : Yields (step >>= f) R :=
  fun p => hf _ (h p) _

theorem mono (h : Yields step P) (hPQ : ∀ a, P a → Q a) : Yields step Q :=
  fun p => hPQ _ (h p)

end Build.Yields

open Build (Yields)

namespace Workspace

variable {ws : Workspace} {n m : NodeId} {node : Node} {s o : SocketId} {scope : Build.Scope}
  {build : Build.Builder} {e f : Expr String} {es : List (Expr String)} {t u : Ty}
  {types : List Ty} {type name : String} {binders : List (List String)} {k : Nat} {Γ : Context}
  {tag : Option SocketId} {ss : List SocketId}

/-- The sockets of a node are an instance of the signature that its block has now. -/
theorem exists_instance (h : ws.Sound) (hu : ws.UpToDate) (hc : ws.Coherent n)
    (hn : ws.graph.node? n = some node) :
    ∃ signature s, node.block.derive ws.registry ws.supply = .ok (signature, s) ∧
      ∀ t, signature = some t → node.inputs.length = t.arity ∧ ∃ θ : TyVar → Ty,
        TyTerm.curried (node.inputs.map ws.stored) (ws.stored node.output) = t.bind θ := by
  have htyped := hc.typed n node (.refl _ n) hn
  obtain ⟨signature, s, hderive, hrel⟩ := hu.nodes n node hn htyped ws.supply (Nat.le_refl _)
  refine ⟨signature, s, hderive, ?_⟩
  rintro t rfl
  obtain ⟨scheme, hscheme, θ, hθ⟩ := hc.principal.self.node n node (.refl _ n) hn
  have hlen := (h.nodes n node hn).length_inputs htyped
  cases hsig : node.signature with
  | none =>
    rw [hsig] at hrel
    cases hrel
  | some a =>
    rw [hsig] at hrel hlen
    cases hrel with
    | some hrel =>
      refine ⟨hlen.trans hrel.arity_eq.symm, ?_⟩
      obtain ⟨f, hf, rfl⟩ := hrel
      rw [Node.scheme?, hsig] at hscheme
      cases hscheme
      rw [Node.sockets, List.map_append, List.map_append] at hθ
      obtain ⟨hinputs, houtput⟩ := List.append_inj' hθ rfl
      obtain ⟨θ', hθ'⟩ := TyTerm.exists_bind_map hf θ (.var 0)
      refine ⟨θ', ?_⟩
      rw [hθ' a fun v hv => hv, hinputs, List.singleton_inj.mp houtput, ← TyTerm.bind_curried,
        TyTerm.curried_uncurry]

/-- A distinction of cases takes a value of its type, and its branches have the type of its
output. -/
theorem exists_caseInstance (h : ws.Sound) (hu : ws.UpToDate) (hc : ws.Coherent n)
    (hn : ws.graph.node? n = some node) (hblock : node.block = .caseOf type binders) :
    ∃ s branches, node.inputs = s :: branches ∧ ws.stored s = .lit type [] ∧
      ∀ b ∈ branches, ws.stored b = ws.stored node.output := by
  obtain ⟨signature, s₁, hderive, hinstance⟩ := exists_instance h hu hc hn
  rw [hblock, ← Block.derives_iff] at hderive
  cases hderive with
  | caseOf htype =>
    obtain ⟨hlen, θ, hθ⟩ := hinstance _ rfl
    rw [TyTerm.arity_curried] at hlen
    rw [TyTerm.bind_curried, List.map_cons, List.map_replicate, Registry.userType?_name htype] at hθ
    obtain ⟨hparams, hresult⟩ := TyTerm.curried_inj (by simpa [TyTerm.arity] using hlen) hθ
    cases hinputs : node.inputs with
    | nil =>
      rw [hinputs] at hparams
      cases hparams
    | cons s branches =>
      rw [hinputs, List.map_cons, List.cons.injEq] at hparams
      refine ⟨s, branches, rfl, hparams.1, fun b hb => ?_⟩
      rw [hresult]
      exact List.eq_of_mem_replicate (hparams.2 ▸ List.mem_map_of_mem hb)

/-! ## Expressions in their contexts -/

/-- The expression has a type in every context around an output in which nothing is captured. -/
def WellTyped (ws : Workspace) (scope : Build.Scope) (o : SocketId) (e : Expr String) (t : Ty) :
    Prop :=
  ∀ Γ, ws.Encloses Γ scope o → ws.graph.captureFree (Γ.map Prod.fst) e = true → ws.HasType Γ 0 e t

theorem WellTyped.applyAll
    (hf : ∀ Γ, ws.graph.captureFree (Γ.map Prod.fst) f = true →
      ws.HasType Γ es.length f (.curried types t))
    (hes : List.Forall₂ (ws.WellTyped scope o) es types) :
    ws.WellTyped scope o (f.applyAll es) t := by
  intro Γ henc hfree
  rw [Graph.captureFree_applyAll, Bool.and_eq_true, List.all_eq_true] at hfree
  refine (hf Γ hfree.1).applyAll ?_
  refine ((List.forall₂_and_left _ _).mpr ⟨hfree.2, hes⟩).imp ?_
  rintro e t ⟨hefree, he⟩
  exact he Γ henc hefree

theorem WellTyped.combinator (θ : TyVar → Ty) (hname : Registry.prelude.lookup name = some u)
    (hu : u.bind θ = .curried types t) (hes : List.Forall₂ (ws.WellTyped scope o) es types) :
    ws.WellTyped scope o ((Expr.var tag name).applyAll es) t :=
  .applyAll (fun _ _ => hu ▸ .combinator θ hname) hes

theorem wellTyped_hole
    (hs : ∀ node, ws.graph.source? s = some node → node.block.localName? ≠ some Expr.undefName) :
    ws.WellTyped scope o (Build.hole s) t :=
  fun _ _ hfree => .hole t (Graph.lookup_of_captureFree hfree (Graph.isHeadOrHole_hole hs))

theorem wellTyped_unlinked (hs : ws.graph.At s n (.input k)) (hp : ws.graph.peer? s = none) :
    ws.WellTyped scope o (Build.hole s) t := by
  refine wellTyped_hole fun node hnode => ?_
  rw [Graph.source?_unlinked hs hp] at hnode
  cases hnode

/-! ## What feeds a node -/

/-- The builder gives well-typed expressions for the outputs that feed a node. -/
def Builds (ws : Workspace) (n : NodeId) (build : Build.Builder) : Prop :=
  ∀ scope o m, ws.graph.At o m .output → ws.graph.Feeds m n →
    Yields (build scope o) fun e => e.tag = some o ∧ ws.WellTyped scope o e (ws.stored o)

theorem input_linked (h : ws.graph.WellFormed) (hc : ws.Coherent n) (hbuild : ws.Builds n build)
    (hs : ws.graph.At s n (.input k)) (hp : ws.graph.peer? s = some o) :
    Yields (Build.input ws.graph build scope s) fun e => ws.WellTyped scope o e (ws.stored s) := by
  obtain ⟨m, ho, hw, hfeeds⟩ := Graph.exists_feeds h hs hp
  have hwire : ws.stored o = ws.stored s :=
    hc.principal.self.wire o s m hw (Graph.owner?_eq_some_iff.mpr ⟨_, ho⟩)
      (Graph.Connected.symm (.single hfeeds.linked))
  rw [Build.input, hp]
  refine (hbuild scope o m ho hfeeds).bind ?_
  rintro e ⟨htag, he⟩
  refine .pure fun Γ henc hfree => ?_
  have hsource : (some s).bind ws.graph.source? = e.tag.bind ws.graph.source? := by
    rw [htag]
    exact Graph.source?_input hs hp ho
  rw [Graph.captureFree_retag hsource] at hfree
  rw [← hwire]
  exact (he Γ henc hfree).retag hsource

theorem input_wellTyped (h : ws.graph.WellFormed) (hc : ws.Coherent n) (hbuild : ws.Builds n build)
    (hn : ws.graph.node? n = some node) (hs : ws.graph.At s n (.input k))
    (hsite : ∀ name, siteAt? n node.block (.input k) name = none) :
    Yields (Build.input ws.graph build scope s) fun e =>
      ws.WellTyped scope node.output e (ws.stored s) := by
  cases hp : ws.graph.peer? s with
  | none =>
    rw [Build.input, hp]
    exact .pure (wellTyped_unlinked hs hp)
  | some o =>
    exact (input_linked h hc hbuild hs hp).mono fun e he Γ henc hfree =>
      he Γ (henc.input h hc hn hs hp hsite) hfree

theorem inputs_wellTyped
    (hss : ∀ s ∈ ss, Yields (Build.input ws.graph build scope s) fun e =>
      ws.WellTyped scope o e (ws.stored s)) :
    Yields (Build.inputs ws.graph build scope ss) fun es =>
      List.Forall₂ (ws.WellTyped scope o) es (ss.map ws.stored) := by
  induction ss with
  | nil => exact .pure .nil
  | cons s rest ih =>
    rw [Build.inputs]
    refine (hss s List.mem_cons_self).bind fun e he => ?_
    refine (ih fun s hs => hss s (List.mem_cons_of_mem _ hs)).bind fun es hes => ?_
    exact .pure (.cons he hes)

/-! ## Branches -/

theorem bindNames_spec (ws : Workspace) (names : List (String × Option Ty)) (body : Expr String) :
    Yields (Build.bindNames names body) fun e => ∃ Δ, Bindings names Δ ∧
      (∀ Γ t, ws.HasType (Δ ++ Γ) 0 body t → ws.HasType Γ 0 e t) ∧
      ∀ bound, ws.graph.captureFree bound e =
        ws.graph.captureFree (Δ.map Prod.fst ++ bound) body := by
  induction names generalizing body with
  | nil => exact .pure ⟨[], .nil, fun _ _ h => h, fun _ => rfl⟩
  | cons p rest ih =>
    obtain ⟨name, field⟩ := p
    have hstep : ∀ ty, Annotates field ty →
        Yields (Build.bindNames rest (.bind body.tag name ty body)) fun e => ∃ Δ,
          Bindings ((name, field) :: rest) Δ ∧
          (∀ Γ t, ws.HasType (Δ ++ Γ) 0 body t → ws.HasType Γ 0 e t) ∧
          ∀ bound, ws.graph.captureFree bound e =
            ws.graph.captureFree (Δ.map Prod.fst ++ bound) body := by
      intro ty hty
      refine (ih (.bind body.tag name ty body)).mono ?_
      rintro e ⟨Δ, hΔ, htype, hfree⟩
      exact ⟨(name, ty) :: Δ, .cons ⟨rfl, hty⟩ hΔ, fun Γ t hbody => htype Γ t (.bind hbody), hfree⟩
    cases field with
    | some ty => exact hstep ty rfl
    | none => exact fun p => hstep _ ⟨_, rfl⟩ _

theorem arm_wellTyped (h : ws.graph.WellFormed) (hc : ws.Coherent n) (hbuild : ws.Builds n build)
    (hn : ws.graph.node? n = some node) (hblock : node.block = .caseOf type binders)
    (hs : ws.graph.At s n (.input (k + 1))) :
    Yields (Build.arm ws.graph ws.registry build scope type (binders.getD k []) k s) fun e =>
      ws.WellTyped scope node.output e (ws.stored s) := by
  cases hp : ws.graph.peer? s with
  | none =>
    rw [Build.arm, hp]
    exact .pure (wellTyped_unlinked hs hp)
  | some o =>
    rw [Build.arm, hp]
    refine (input_linked h hc hbuild hs hp).bind fun body hbody => ?_
    refine (bindNames_spec ws _ body).mono ?_
    rintro e ⟨Δ, hΔ, htype, hfree⟩ Γ henc hefree
    refine htype Γ _ (hbody (Δ ++ Γ) (henc.branch h hc hn hblock hs hp hΔ) ?_)
    rw [List.map_append, ← hfree]
    exact hefree

theorem arms_wellTyped
    (hss : ∀ i s, ss[i]? = some s →
      Yields (Build.arm ws.graph ws.registry build scope type (binders.getD (k + i) []) (k + i) s)
        fun e => ws.WellTyped scope o e t) :
    Yields (Build.arms ws.graph ws.registry build scope type binders k ss) fun es =>
      ∀ e ∈ es, ws.WellTyped scope o e t := by
  induction ss generalizing k with
  | nil => exact .pure fun e he => absurd he List.not_mem_nil
  | cons s rest ih =>
    rw [Build.arms]
    refine (hss 0 s rfl).bind fun e he => ?_
    refine (ih fun i s hs => ?_).bind fun es hes => ?_
    · rw [Nat.add_right_comm]
      exact hss (i + 1) s hs
    · exact .pure (List.forall_mem_cons.mpr ⟨he, hes⟩)

theorem joinArms_wellTyped (ho : ws.WellTyped scope o (Build.hole o) t)
    (hes : ∀ e ∈ es, ws.WellTyped scope o e t) : ws.WellTyped scope o (Build.joinArms o es) t := by
  induction es with
  | nil => exact ho
  | cons e rest ih =>
    obtain ⟨he, hrest⟩ := List.forall_mem_cons.mp hes
    cases rest with
    | nil => exact he
    | cons e' rest =>
      exact .combinator (fun _ => t) rfl rfl (.cons he (.cons (ih hrest) .nil))

theorem scrutinee_wellTyped (h : ws.graph.WellFormed) (hc : ws.Coherent n)
    (hbuild : ws.Builds n build) (hn : ws.graph.node? n = some node)
    (hblock : node.block = .caseOf type binders) (hs : ws.graph.At s n (.input 0))
    (hstored : ws.stored s = .lit type []) :
    Yields (Build.scrutinee ws.graph build scope type node.output s) fun e =>
      ws.WellTyped scope node.output e (.lit type []) := by
  have hname : ws.WellTyped scope node.output (.lit (some node.output) type) (.lit type []) :=
    fun _ _ _ => .typeName (Graph.source?_node h hn) hblock
  rw [Build.scrutinee]
  cases hp : ws.graph.peer? s with
  | none => exact .pure hname
  | some o =>
    refine (input_wellTyped h hc hbuild hn hs fun _ => by rw [hblock]; rfl).bind fun e he => ?_
    rw [hstored] at he
    exact .pure (.combinator (fun _ => .lit type []) rfl rfl (.cons he (.cons hname .nil)))

theorem caseExpr_wellTyped (h : ws.Sound) (hu : ws.UpToDate) (hc : ws.Coherent n)
    (hbuild : ws.Builds n build) (hn : ws.graph.node? n = some node)
    (hblock : node.block = .caseOf type binders) :
    Yields (Build.caseExpr ws.graph ws.registry build scope type binders node.output node.inputs)
      fun e => e.tag = some node.output ∧
        ws.WellTyped scope node.output e (ws.stored node.output) := by
  obtain ⟨s, branches, hinputs, hvalue, hresults⟩ := exists_caseInstance h hu hc hn hblock
  have hs : ws.graph.At s n (.input 0) := (Graph.At.input_eq h.graph hn).mpr (by rw [hinputs]; rfl)
  have harms : ∀ i b, branches[i]? = some b →
      Yields (Build.arm ws.graph ws.registry build scope type (binders.getD (0 + i) []) (0 + i) b)
        fun e => ws.WellTyped scope node.output e (ws.stored node.output) := by
    intro i b hb
    rw [Nat.zero_add, ← hresults b (List.mem_of_getElem? hb)]
    refine arm_wellTyped h.graph hc hbuild hn hblock ((Graph.At.input_eq h.graph hn).mpr ?_)
    rw [hinputs, List.getElem?_cons_succ, hb]
  have hhole : ws.WellTyped scope node.output (Build.hole node.output) (ws.stored node.output) := by
    refine wellTyped_hole fun node' hnode' => ?_
    rw [Graph.source?_node h.graph hn] at hnode'
    cases hnode'
    rw [hblock]
    rintro ⟨⟩
  rw [hinputs, Build.caseExpr]
  refine (scrutinee_wellTyped h.graph hc hbuild hn hblock hs hvalue).bind fun value hvalue => ?_
  refine (arms_wellTyped harms).bind fun es hes => .pure ⟨Expr.tag_applyAll .., ?_⟩
  exact .combinator (fun v => if v = 1 then .lit type [] else ws.stored node.output) rfl rfl
    (.cons hvalue (.cons (joinArms_wellTyped hhole hes) .nil))

/-! ## Nodes and outputs -/

theorem apply_wellTyped (h : ws.graph.WellFormed) (hc : ws.Coherent n) (hbuild : ws.Builds n build)
    (hn : ws.graph.node? n = some node) (hhead : node.block.head? = some name)
    (htype : ∀ Γ : Context, Γ.lookup name = none → ws.HasType Γ node.inputs.length
      (.var (some node.output) name)
      (.curried (node.inputs.map ws.stored) (ws.stored node.output))) :
    Yields (do
        let args ← Build.inputs ws.graph build scope node.inputs
        return (Expr.var (some node.output) name).applyAll args) fun e =>
      e.tag = some node.output ∧ ws.WellTyped scope node.output e (ws.stored node.output) := by
  have hinputs : ∀ s ∈ node.inputs, Yields (Build.input ws.graph build scope s) fun e =>
      ws.WellTyped scope node.output e (ws.stored s) := by
    intro s hs
    obtain ⟨k, hk⟩ := (Graph.mem_inputs_iff h hn).mp hs
    refine input_wellTyped h hc hbuild hn hk fun name => ?_
    unfold siteAt?
    split
    · next hblock _ =>
      rw [hblock] at hhead
      cases hhead
    · rfl
  refine (inputs_wellTyped hinputs).bind fun es hes => .pure ⟨Expr.tag_applyAll .., ?_⟩
  refine .applyAll (fun Γ hfree => ?_) hes
  rw [hes.length_eq, List.length_map]
  exact htype Γ (Graph.lookup_of_captureFree hfree
    (Graph.isHeadOrHole_head (Graph.source?_node h hn) hhead))

theorem localVar_wellTyped (hc : ws.Coherent n) (hn : ws.graph.node? n = some node)
    (hblock : node.block = .localVar name) (hbound : name ∈ scope.flatten) :
    ws.WellTyped scope node.output (.var (some node.output) name) (ws.stored node.output) := by
  intro Γ henc _
  rw [← henc.names] at hbound
  cases hlookup : Γ.lookup name with
  | none =>
    obtain ⟨p, hp, rfl⟩ := List.mem_map.mp hbound
    have hne := List.lookup_eq_none_iff.mp hlookup p hp
    exact absurd rfl (bne_iff_ne.mp hne)
  | some t =>
    obtain ⟨site, hfollow, hannotates⟩ := henc.site name t hlookup
    have hsite : bindingSite? ws.graph none n = some site := by
      simp only [bindingSite?, hn, hblock, hfollow]
    have hscope := hc.principal.self.scope n node (.refl _ n) hn site
    cases hfield : ws.registry.fieldType? site.type site.branch site.field with
    | some u =>
      rw [hfield] at hannotates
      obtain ⟨θ, hθ⟩ := hscope u hsite hfield
      rw [hθ]
      cases hannotates
      exact .pattern θ hlookup
    | none =>
      rw [hfield] at hannotates
      obtain ⟨v, rfl⟩ := hannotates
      exact .pattern (t := .var v) (fun _ => ws.stored node.output) hlookup

theorem unbound_wellTyped (h : ws.graph.WellFormed) (hn : ws.graph.node? n = some node)
    (hblock : node.block = .localVar name) (hbound : name ∉ scope.flatten) :
    ws.WellTyped scope node.output (Build.hole node.output) t := by
  by_cases hname : name = Expr.undefName
  · intro Γ henc _
    refine .hole t (List.lookup_eq_none_iff.mpr fun p hp => bne_iff_ne.mpr ?_)
    rintro heq
    rw [← henc.names, hname, heq] at hbound
    exact hbound (List.mem_map_of_mem hp)
  · refine wellTyped_hole fun node' hnode' => ?_
    rw [Graph.source?_node h hn] at hnode'
    cases hnode'
    rw [hblock]
    exact fun heq => hname (Option.some.inj heq)

theorem node_wellTyped (h : ws.Sound) (hu : ws.UpToDate) (hc : ws.Coherent n)
    (hbuild : ws.Builds n build) (hn : ws.graph.node? n = some node) :
    Yields (Build.node ws.graph ws.registry build scope node.output node) fun e =>
      e.tag = some node.output ∧ ws.WellTyped scope node.output e (ws.stored node.output) := by
  obtain ⟨signature, s₁, hderive, hinstance⟩ := exists_instance h hu hc hn
  rw [Build.node]
  cases hblock : node.block with
  | literal ty value =>
    exact .pure ⟨rfl, fun _ _ _ => .value (Graph.source?_node h.graph hn) hblock⟩
  | function name =>
    refine apply_wellTyped h.graph hc hbuild hn (by rw [hblock]; rfl) fun Γ hfree => ?_
    rw [hblock, ← Block.derives_iff] at hderive
    cases hderive with
    | function hname _ =>
      obtain ⟨_, θ, hθ⟩ := hinstance _ rfl
      rw [hθ]
      exact .function θ hfree hname
  | ctor name =>
    refine apply_wellTyped h.graph hc hbuild hn (by rw [hblock]; rfl) fun Γ hfree => ?_
    rw [hblock, ← Block.derives_iff] at hderive
    cases hderive with
    | ctor hv =>
      obtain ⟨_, θ, hθ⟩ := hinstance _ rfl
      rw [hθ]
      exact .ctor θ hfree (by rw [Registry.ctorSignature?, hv]; rfl)
  | list items =>
    refine apply_wellTyped h.graph hc hbuild hn (by rw [hblock]; rfl) fun Γ hfree => ?_
    rw [hblock] at hderive
    cases hderive
    obtain ⟨hlen, θ, hθ⟩ := hinstance _ rfl
    rw [TyTerm.arity_curried, List.length_replicate] at hlen
    rw [hθ, hlen, TyTerm.bind_curried, List.map_replicate]
    exact .list (θ ws.supply.next) hfree
  | localVar name =>
    simp only
    split
    · next hbound =>
      exact .pure ⟨rfl, localVar_wellTyped hc hn hblock (by simpa using hbound)⟩
    · next hbound =>
      exact fun p => ⟨rfl, unbound_wellTyped h.graph hn hblock (by simpa using hbound)⟩
  | caseOf type binders => exact caseExpr_wellTyped h hu hc hbuild hn hblock

theorem output_new {active : List NodeId} (hn : ws.graph.node? n = some node)
    (hs : ws.graph.owner? s = some n) (hnew : n ∉ active) :
    Build.output ws.graph ws.registry active scope s = (do
      let e ← Build.node ws.graph ws.registry
        (fun scope s => Build.output ws.graph ws.registry (n :: active) scope s) scope s node
      return e.retag (some s)) := by
  obtain ⟨_, socket, hsocket, rfl, _⟩ := Graph.owner?_eq_some_iff.mp hs
  rw [Build.output]
  simp only [hsocket]
  split
  · next hnone => cases hn.symm.trans hnone
  · next node' hn' =>
    cases hn.symm.trans hn'
    exact dif_neg hnew

/-- The nodes on the way from where the building began have higher ranks, so the builder meets none
of them again. -/
theorem output_wellTyped (h : ws.Sound) (hu : ws.UpToDate) (hc : ws.Coherent m)
    {rank : NodeId → Nat}
    (hrank : ∀ p c, ws.graph.Connected m p → ws.graph.Feeds p c → rank p < rank c)
    {active : List NodeId} (hs : ws.graph.At s n .output) (hm : ws.graph.Connected m n)
    (hactive : ∀ a ∈ active, rank n < rank a) :
    Yields (Build.output ws.graph ws.registry active scope s) fun e =>
      e.tag = some s ∧ ws.WellTyped scope s e (ws.stored s) := by
  induction hk : rank n using Nat.strongRecOn generalizing n s active scope with
  | ind k ih =>
    obtain ⟨node, hn⟩ := hs.node? h.graph
    obtain rfl := (Graph.At.output_eq h.graph hn).mp hs
    have hbuild : ws.Builds n fun scope s =>
        Build.output ws.graph ws.registry (n :: active) scope s := by
      intro scope o p ho hfeeds
      have hp : ws.graph.Connected m p := hm.tail hfeeds.linked.symm
      have hlt : rank p < rank n := hrank p n hp hfeeds
      refine ih (rank p) (hk ▸ hlt) ho hp (fun a ha => ?_) rfl
      rcases List.mem_cons.mp ha with rfl | ha
      · exact hlt
      · exact Nat.lt_trans hlt (hactive a ha)
    have hnew : n ∉ active := fun hmem => Nat.lt_irrefl _ (hactive n hmem)
    rw [output_new hn (Graph.owner?_eq_some_iff.mpr ⟨_, hs⟩) hnew]
    refine (node_wellTyped h hu (hc.of_connected hm.symm) hbuild hn).bind fun e he => ?_
    rw [Expr.retag_self he.1]
    exact .pure he

/-- In a workspace without links that are still to be solved, the expression of an output has the
type of the output, if its component has no invalid sockets and nothing in the expression is
captured. -/
theorem build_hasType (h : ws.Resolved) {root : SocketId} (hroot : ws.graph.At root n .output)
    (hvalid : ws.Valid root) (hfree : ws.graph.captureFree [] (ws.build root).expr = true) :
    ∃ t, ws.typeOf? root = some t ∧ ws.HasType [] 0 (ws.build root).expr t := by
  have hsound := h.reachable.sound
  have howner : ws.graph.owner? root = some n := Graph.owner?_eq_some_iff.mpr ⟨_, hroot⟩
  have hc := hvalid.coherent hsound.graph h.settled howner
  obtain ⟨rank, hrank⟩ := hc.ranked
  have hbuilt : Yields (Build.output ws.graph ws.registry [] [] root) fun e =>
      e.tag = some root ∧ ws.WellTyped [] root e (ws.stored root) :=
    output_wellTyped hsound h.reachable.upToDate hc hrank hroot (.refl _ n)
      fun a ha => absurd ha List.not_mem_nil
  have hexpr := (hbuilt { supply := ws.supply }).2
  exact ⟨ws.stored root, typeOf?_eq_stored howner, hexpr [] (.nil ws root) hfree⟩

/-- The radius of a circle, looked up in a circle whose own radius is left out. -/
def radiusOf : List Action :=
  [.defineType "Shape" [⟨"Circle", [some (.lit "Number" [])]⟩, ⟨"Dot", []⟩],
    .addNode (.caseOf "Shape" [["r"], []]), .addNode (.localVar "r"),
    .addNode (.literal (.lit "Number" []) "0"), .addNode (.ctor "Circle"),
    .attach 6 1, .attach 4 2, .attach 5 3]

/-- The hole, the pattern variable and the literal fit what they are used for. -/
theorem build_hasType_radiusOf :
    ∃ ws₀ ws : Workspace, empty.runAll radiusOf = some ws₀ ∧ ws₀.resolveAll.2 = ws ∧
      ws.graph.At 0 0 .output ∧ ws.Valid 0 ∧
      ws.graph.captureFree [] (ws.build 0).expr = true ∧
      ws.typeOf? 0 = some (.lit "Number" []) ∧
      ws.HasType [] 0 (ws.build 0).expr (.lit "Number" []) := by
  have hchecks : (empty.runAll radiusOf).any (fun ws₀ =>
      let ws := ws₀.resolveAll.2
      ws.invalidSockets.isEmpty && ws.graph.captureFree [] (ws.build 0).expr &&
        ws.typeOf? 0 = some (.lit "Number" []) &&
        (ws.graph.socket? 0).any fun socket =>
          socket.node = 0 && socket.role = .output) = true := by
    simp only [radiusOf, runAll, Action.run_defineType]
    cbv
  obtain ⟨ws₀, hrun, hchecks⟩ := (Option.any_eq_true _ _).mp hchecks
  simp only [Bool.and_eq_true, List.isEmpty_iff, decide_eq_true_eq] at hchecks
  obtain ⟨⟨⟨hinvalid, hfree⟩, htype⟩, hsocket⟩ := hchecks
  obtain ⟨socket, hsocket, hplace⟩ := (Option.any_eq_true _ _).mp hsocket
  have hroot : ws₀.resolveAll.2.graph.At 0 0 .output := ⟨socket, hsocket, by simpa using hplace⟩
  have hresolved : ws₀.resolveAll.2.Resolved := .resolveAll (Reachable.empty.runAll hrun)
  have hvalid := valid_of_invalidSockets hresolved.reachable.sound.graph hinvalid 0
  obtain ⟨t, ht, hexpr⟩ := build_hasType hresolved hroot hvalid hfree
  rw [htype] at ht
  cases ht
  exact ⟨ws₀, _, hrun, rfl, hroot, hvalid, hfree, htype, hexpr⟩

end Workspace
end BlockGraph
