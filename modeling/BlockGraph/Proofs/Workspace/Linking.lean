import BlockGraph.Proofs.Graph.Joining
import BlockGraph.Proofs.Unification.Substitution
import BlockGraph.Proofs.Workspace.Invariant

/-!
# The equations of a new link

A new link asks for one type at both of its ends, and for types of the pattern
variables that it brings into scope.  `linkEquations` lists all of this.  Solving a
link either finds a most general solution of these equations or fails, and then they
have none (`solveLink_ok`, `solveLink_error`).
-/

namespace BlockGraph
namespace Workspace

variable {ws : Workspace} {o i : SocketId} {p c n : NodeId} {node : Node}

theorem checkLink_ok {acyclic : Bool} (h : ws.checkLink ⟨o, i⟩ acyclic = .ok ()) :
    ∃ p c, Graph.Linkable ws.graph o i p c ∧
      (acyclic = true → ws.graph.wouldCycle p c = false) := by
  unfold checkLink at h
  split at h
  · cases h
  next producer hproducer =>
  split at h
  · cases h
  next hrole =>
  split at h
  · cases h
  next consumer hconsumer =>
  split at h
  · cases h
  next hrole' =>
  split at h
  · cases h
  next hi =>
  split at h
  · cases h
  next ho =>
  split at h
  · cases h
  next hcycle =>
  refine ⟨producer.node, consumer.node, ⟨⟨producer, hproducer, rfl, ?_⟩, ?_, ?_, ?_⟩, ?_⟩
  · simpa using hrole
  · cases hr : consumer.role with
    | output => exact absurd hr hrole'
    | input k => exact ⟨k, consumer, hconsumer, rfl, hr⟩
  · simpa using ho
  · simpa using hi
  · rintro rfl
    simpa using hcycle

theorem checkLink_acyclic (h : ws.graph.WellFormed) (hcheck : ws.checkLink ⟨o, i⟩ true = .ok ()) :
    ∃ p c, Graph.Linkable ws.graph o i p c ∧ ¬ Relation.ReflTransGen ws.graph.Feeds c p := by
  obtain ⟨p, c, hl, hcycle⟩ := checkLink_ok hcheck
  obtain ⟨node, hnode, _⟩ := Graph.owner?_node h hl.owner_input
  exact ⟨p, c, hl, Graph.not_wouldCycle h (Graph.mem_nodeIds.mpr ⟨node, hnode⟩) (hcycle rfl)⟩

/-- Nothing but a cycle can stand against a link between free sockets. -/
theorem checkLink_of_linkable (hl : Graph.Linkable ws.graph o i p c) :
    ws.checkLink ⟨o, i⟩ false = .ok () := by
  obtain ⟨producer, hproducer, _, hrole⟩ := hl.output
  obtain ⟨k, consumer, hconsumer, _, hrole'⟩ := hl.input
  simp [checkLink, hproducer, hrole, hconsumer, hrole', hl.input_free, hl.output_free]

/-! ## The types of pattern variables in scope -/

/-- A type is a copy of another one with other variables. -/
def IsCopy (t u : Ty) : Prop :=
  ∃ f : TyVar → TyVar, (∀ v ∈ t.leaves, ∀ w ∈ t.leaves, f v = f w → v = w) ∧ u = t.map f

theorem IsCopy.instance_iff {t u : Ty} (h : IsCopy t u) (w : Ty) :
    (∃ θ : TyVar → Ty, w = t.bind θ) ↔ ∃ θ : TyVar → Ty, w = u.bind θ := by
  obtain ⟨f, hf, rfl⟩ := h
  constructor
  · rintro ⟨θ, rfl⟩
    obtain ⟨θ', hθ'⟩ := TyTerm.exists_bind_map hf θ (.var 0)
    exact ⟨θ', (hθ' t fun _ hv => hv).symm⟩
  · rintro ⟨θ, rfl⟩
    exact ⟨θ ∘ f, TyTerm.bind_map f θ t⟩

/-- The type of the field at a site, which is any type if it is not set. -/
def fieldScheme (r : Registry) (site : BindingSite) : Ty :=
  (r.fieldType? site.type site.branch site.field).getD (.var 0)

theorem siteType_spec (r : Registry) (site : BindingSite) (s : Supply) :
    s.next ≤ (siteType r site s).2.next ∧
      (siteType r site s).1.Within s.next (siteType r site s).2.next ∧
      IsCopy (fieldScheme r site) (siteType r site s).1 := by
  rw [siteType, fieldScheme]
  cases r.fieldType? site.type site.branch site.field with
  | none =>
    refine ⟨Nat.le_succ _, fun v hv => ?_, fun _ => s.next, fun v hv w hw _ => ?_, rfl⟩
    · rw [List.mem_singleton.mp hv]
      exact ⟨Nat.le_refl _, Nat.lt_succ_self _⟩
    · rw [List.mem_singleton.mp hv, List.mem_singleton.mp hw]
  | some t =>
    refine ⟨Nat.le_add_right .., fun w hw => ?_, s.numbered t.vars, fun v hv w hw => ?_, rfl⟩
    · obtain ⟨v, hv, rfl⟩ := TyTerm.mem_leaves_map_iff.mp hw
      exact Supply.numbered_range s (TyTerm.mem_vars.mpr hv)
    · exact Supply.numbered_injective s v (TyTerm.mem_vars.mpr hv) w (TyTerm.mem_vars.mpr hw)

/-- A pattern variable that is bound is listed with a copy of the type of its field. -/
structure ScopeEntry (g : Graph) (r : Registry) (pending : Option Link) (n : NodeId) (node : Node)
    (site : BindingSite) (e : SocketId × Ty) : Prop where
  live : g.node? n = some node
  bound : bindingSite? g pending n = some site
  output : e.1 = node.output
  copy : IsCopy (fieldScheme r site) e.2

/-- Every pattern variable among the nodes that is bound is listed.  The supply goes from `s` to
`s'`, and no two copies have a variable in common. -/
structure ScopeListed (g : Graph) (r : Registry) (pending : Option Link) (nodes : List NodeId)
    (s s' : Supply) (entries : List (SocketId × Ty)) : Prop where
  supply : s.next ≤ s'.next
  entry : ∀ e ∈ entries, ∃ n ∈ nodes, ∃ node site, ScopeEntry g r pending n node site e
  within : ∀ e ∈ entries, e.2.Within s.next s'.next
  complete : ∀ n ∈ nodes, ∀ node site, g.node? n = some node →
    bindingSite? g pending n = some site →
    ∃ t, (node.output, t) ∈ entries
  apart : ∀ e ∈ entries, ∀ e' ∈ entries, ∀ v ∈ e.2.leaves, v ∈ e'.2.leaves → e = e'

section ScopeListed

variable {g : Graph} {r : Registry} {pending : Option Link} {m : NodeId} {node : Node}
  {nodes : List NodeId} {s s' : Supply} {entries : List (SocketId × Ty)}

theorem ScopeListed.skip (h : ScopeListed g r pending nodes s s' entries)
    (hfree : ∀ node site, g.node? m = some node → bindingSite? g pending m ≠ some site) :
    ScopeListed g r pending (m :: nodes) s s' entries := by
  refine ⟨h.supply, fun e he => ?_, h.within, fun n hn node site hnode hsite => ?_, h.apart⟩
  · obtain ⟨n, hn, hentry⟩ := h.entry e he
    exact ⟨n, List.mem_cons_of_mem m hn, hentry⟩
  · rcases List.mem_cons.mp hn with rfl | hn
    · exact absurd hsite (hfree node site hnode)
    · exact h.complete n hn node site hnode hsite

theorem ScopeListed.cons {site : BindingSite} (hnode : g.node? m = some node)
    (hsite : bindingSite? g pending m = some site)
    (h : ScopeListed g r pending nodes (siteType r site s).2 s' entries) :
    ScopeListed g r pending (m :: nodes) s s'
      ((node.output, (siteType r site s).1) :: entries) := by
  obtain ⟨hle, hwithin, hcopy⟩ := siteType_spec r site s
  -- The variables of later copies come after those of this one.
  have hlater : ∀ e ∈ entries, ∀ v ∈ (siteType r site s).1.leaves, v ∉ e.2.leaves := by
    intro e he v hv hv'
    exact absurd (hwithin v hv).2 (Nat.not_lt.mpr (h.within e he v hv').1)
  refine ⟨Nat.le_trans hle h.supply, fun e he => ?_, fun e he => ?_,
    fun n hn node' site' hnode' hsite' => ?_, fun e he e' he' v hv hv' => ?_⟩
  · rcases List.mem_cons.mp he with rfl | he
    · exact ⟨m, List.mem_cons_self, node, site, hnode, hsite, rfl, hcopy⟩
    · obtain ⟨n, hn, hentry⟩ := h.entry e he
      exact ⟨n, List.mem_cons_of_mem m hn, hentry⟩
  · rcases List.mem_cons.mp he with rfl | he
    · exact hwithin.mono (Nat.le_refl _) h.supply
    · exact (h.within e he).mono hle (Nat.le_refl _)
  · rcases List.mem_cons.mp hn with rfl | hn
    · rw [hnode] at hnode'
      cases hnode'
      exact ⟨_, List.mem_cons_self⟩
    · obtain ⟨t, ht⟩ := h.complete n hn node' site' hnode' hsite'
      exact ⟨t, List.mem_cons_of_mem _ ht⟩
  · rcases List.mem_cons.mp he with rfl | he₁ <;> rcases List.mem_cons.mp he' with rfl | he₂
    · rfl
    · exact absurd hv' (hlater e' he₂ v hv)
    · exact absurd hv (hlater e he₁ v hv')
    · exact h.apart e he₁ e' he₂ v hv hv'

end ScopeListed

theorem scopeConstraints_listed (g : Graph) (r : Registry) (pending : Option Link)
    (nodes : List NodeId) (s : Supply) :
    ScopeListed g r pending nodes s (scopeConstraints g r pending nodes s).2
      (scopeConstraints g r pending nodes s).1 := by
  induction nodes generalizing s with
  | nil =>
    refine ⟨Nat.le_refl _, ?_, ?_, ?_, ?_⟩
    all_goals exact fun x hx => absurd hx List.not_mem_nil
  | cons m rest ih =>
    rw [scopeConstraints]
    split
    · next node site hnode hsite => exact .cons hnode hsite (ih _)
    · next hfree => exact (ih s).skip fun node site hnode hsite => hfree node site hnode hsite

/-! ## Solving -/

/-- The equations between the types of sockets and given types. -/
def scopeEquations (ws : Workspace) (constraints : List (SocketId × Ty)) : List Equation :=
  constraints.map fun e => (ws.stored e.1, e.2)

theorem solves_scopeEquations_cons {f : TyVar → Ty} {e : SocketId × Ty}
    {rest : List (SocketId × Ty)} : Solves f (ws.scopeEquations (e :: rest)) ↔
      (ws.stored e.1).bind f = e.2.bind f ∧ Solves f (ws.scopeEquations rest) :=
  solves_cons

theorem unifyScope_ok {σ σ' : Subst} {constraints : List (SocketId × Ty)} (hd : σ.Dereferenced)
    (hlive : ∀ e ∈ constraints, ∃ n, ws.graph.owner? e.1 = some n)
    (h : ws.unifyScope σ constraints = .ok σ') :
    σ'.Dereferenced ∧ ∀ f, Absorbs f σ'.image ↔
      Absorbs f σ.image ∧ Solves f (ws.scopeEquations constraints) := by
  induction constraints generalizing σ with
  | nil =>
    cases h
    exact ⟨hd, fun f => (and_iff_left (solves_nil f)).symm⟩
  | cons e rest ih =>
    obtain ⟨n, hn⟩ := hlive e List.mem_cons_self
    rw [unifyScope, typeOf?_eq_stored hn] at h
    cases hu : σ.unify (ws.stored e.1) e.2 with
    | error e =>
      simp only [hu] at h
      cases h
    | ok σ₁ =>
      simp only [hu] at h
      obtain ⟨hd₁, habs₁⟩ := Subst.unify_ok hd hu
      obtain ⟨hd', habs⟩ := ih hd₁ (fun e' he' => hlive e' (List.mem_cons_of_mem e he')) h
      refine ⟨hd', fun f => ?_⟩
      rw [habs, habs₁, and_assoc, solves_scopeEquations_cons]

theorem unifyScope_error {σ : Subst} {e : TypeError} {constraints : List (SocketId × Ty)}
    (hd : σ.Dereferenced) (hlive : ∀ e ∈ constraints, ∃ n, ws.graph.owner? e.1 = some n)
    (h : ws.unifyScope σ constraints = .error e) {f : TyVar → Ty} (hf : Absorbs f σ.image) :
    ¬ Solves f (ws.scopeEquations constraints) := by
  induction constraints generalizing σ with
  | nil => cases h
  | cons x rest ih =>
    obtain ⟨n, hn⟩ := hlive x List.mem_cons_self
    rw [unifyScope, typeOf?_eq_stored hn] at h
    rw [solves_scopeEquations_cons]
    rintro ⟨heq, hrest⟩
    cases hu : σ.unify (ws.stored x.1) x.2 with
    | error e' => exact Subst.unify_error hd hu hf heq
    | ok σ₁ =>
      simp only [hu] at h
      obtain ⟨hd₁, habs₁⟩ := Subst.unify_ok hd hu
      exact ih hd₁ (fun e' he' => hlive e' (List.mem_cons_of_mem x he')) h
        ((habs₁ f).mpr ⟨hf, heq⟩) hrest

/-- The types that pattern variables have to have once an output feeds an input, and the supply
after the variables of these types. -/
def linkScope (ws : Workspace) (o i : SocketId) : List (SocketId × Ty) × Supply :=
  scopeConstraints ws.graph ws.registry (some ⟨o, i⟩) (ws.graph.component [o, i]).nodes ws.supply

/-- All equations that a link from an output to an input adds. -/
def linkEquations (ws : Workspace) (o i : SocketId) : List Equation :=
  (ws.stored o, ws.stored i) :: ws.scopeEquations (ws.linkScope o i).1

theorem linkScope_listed (ws : Workspace) (o i : SocketId) :
    ScopeListed ws.graph ws.registry (some ⟨o, i⟩) (ws.graph.component [o, i]).nodes ws.supply
      (ws.linkScope o i).2 (ws.linkScope o i).1 :=
  scopeConstraints_listed ..

theorem ScopeEntry.owner? {g : Graph} {r : Registry} {pending : Option Link} {site : BindingSite}
    {e : SocketId × Ty} (h : g.WellFormed) (he : ScopeEntry g r pending n node site e) :
    g.owner? e.1 = some n := by
  rw [he.output]
  exact Graph.owner?_output h he.live

theorem linkScope_live (h : ws.graph.WellFormed) :
    ∀ e ∈ (ws.linkScope o i).1, ∃ n, ws.graph.owner? e.1 = some n := by
  intro e he
  obtain ⟨n, _, node, site, hentry⟩ := (linkScope_listed ws o i).entry e he
  exact ⟨n, hentry.owner? h⟩

theorem solveLink_eq (hl : Graph.Linkable ws.graph o i p c) : ws.solveLink ⟨o, i⟩ =
    match unify (ws.stored o) (ws.stored i) with
    | .error e => .error e
    | .ok σ =>
      match ws.unifyScope σ (ws.linkScope o i).1 with
      | .error e => .error e
      | .ok σ => .ok (σ, ws.graph.component [o, i], (ws.linkScope o i).2) := by
  rw [solveLink, typeOf?_eq_stored hl.owner_output, typeOf?_eq_stored hl.owner_input]
  rfl

section SolveLink

variable (h : ws.graph.WellFormed) (hl : Graph.Linkable ws.graph o i p c)
include h hl

theorem solveLink_ok {σ : Subst} {component : Component} {supply : Supply}
    (hs : ws.solveLink ⟨o, i⟩ = .ok (σ, component, supply)) :
    component = ws.graph.component [o, i] ∧ supply = (ws.linkScope o i).2 ∧
      MostGeneral σ.image (ws.linkEquations o i) := by
  rw [solveLink_eq hl] at hs
  split at hs
  · cases hs
  next σ₀ hunify =>
  split at hs
  · cases hs
  next σ₁ hscope =>
  cases hs
  obtain ⟨hd₀, habs₀⟩ := Subst.unify_ok Subst.empty_dereferenced hunify
  obtain ⟨hd, habs⟩ := unifyScope_ok hd₀ (linkScope_live h) hscope
  refine ⟨rfl, rfl, hd, fun f => ?_⟩
  rw [habs, habs₀, Subst.empty_image, and_iff_right (absorbs_var f), linkEquations, solves_cons]

theorem solveLink_error {e : TypeError} (hs : ws.solveLink ⟨o, i⟩ = .error e) (f : TyVar → Ty) :
    ¬ Solves f (ws.linkEquations o i) := by
  rw [linkEquations, solves_cons]
  rintro ⟨heq, hscope⟩
  rw [solveLink_eq hl] at hs
  split at hs
  · next e' hunify =>
    exact Subst.unify_error Subst.empty_dereferenced hunify (absorbs_var f) heq
  next σ₀ hunify =>
  obtain ⟨hd₀, habs₀⟩ := Subst.unify_ok Subst.empty_dereferenced hunify
  split at hs
  · next e' herror =>
    exact unifyScope_error hd₀ (linkScope_live h) herror
      ((habs₀ f).mpr ⟨absorbs_var f, heq⟩) hscope
  · cases hs

end SolveLink

end Workspace
end BlockGraph
