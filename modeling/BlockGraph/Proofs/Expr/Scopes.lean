import BlockGraph.Proofs.Expr.Uses
import BlockGraph.Proofs.Graph.Upstream
import BlockGraph.Proofs.Workspace.Topology

/-!
# Scopes of built expressions

The builder keeps the names that the branches around a place bind, and makes a
pattern variable a hole if its name is not among them.  The search for a binding
site goes downstream from the variable instead.  The two agree: a variable is a hole
where no site is found, and elsewhere the innermost binding of its name is the one
that was made for the site.

`Framed` is what the bindings around a place have to do with the walk downstream from
it.  The rest follows the builder: what is reported of the outputs that feed a node
makes up what is reported of the node.
-/

namespace BlockGraph

namespace Workspace

variable {ws : Workspace} {n m : NodeId} {node : Node} {s o : SocketId} {scope : Build.Scope}
  {build : Build.Builder} {type name : String} {binders : List (List String)} {k : Nat}
  {Γ Δ : List Expr.Binding} {F : List Expr.Binding → Prop} {ss : List SocketId}
  {active : List NodeId} {p : Build.Progress}

/-! ## The bindings around a place -/

/-- Names are bound with the types of their fields, for the branch of an input. -/
def BoundFields (ws : Workspace) (s : SocketId) (names : List (String × Option Ty))
    (Δ : List Expr.Binding) : Prop :=
  List.Forall₂ (fun q b => b.tag = some s ∧ b.name = q.1 ∧ ws.Ascribes q.2 b.ascribed) names Δ

namespace BoundFields

theorem names_eq {names : List (String × Option Ty)} (h : ws.BoundFields s names Δ) :
    Δ.map Expr.Binding.name = names.map Prod.fst := by
  induction h with
  | nil => rfl
  | cons hb _ ih => rw [List.map_cons, List.map_cons, hb.2.1, ih]

theorem tag_eq {names : List (String × Option Ty)} (h : ws.BoundFields s names Δ)
    {b : Expr.Binding} (hb : b ∈ Δ) : b.tag = some s := by
  induction h with
  | nil => exact absurd hb List.not_mem_nil
  | cons hfirst _ ih =>
    rcases List.mem_cons.mp hb with rfl | hb
    · exact hfirst.1
    · exact ih hb

/-- The first name of two that are equal is the one that is meant, so it is bound innermost. -/
theorem split {field : Nat → Option Ty} {names : List String}
    (h : ws.BoundFields s (names.mapIdx fun k name => (name, field k)) Δ)
    (hk : names.idxOf? name = some k) :
    ∃ ascribed inner outer, Δ = inner ++ ⟨some s, name, ascribed⟩ :: outer ∧
      (∀ b ∈ inner, b.name ≠ name) ∧ inner.length = k ∧ ws.Ascribes (field k) ascribed := by
  induction names generalizing field Δ k with
  | nil => cases hk
  | cons x rest ih =>
    rw [List.mapIdx_cons] at h
    cases h with
    | @cons _ b _ Δ hb hrest =>
      obtain ⟨tag, y, t⟩ := b
      obtain ⟨rfl, rfl, ht⟩ : tag = some s ∧ y = x ∧ ws.Ascribes (field 0) t := hb
      rw [List.idxOf?_cons] at hk
      by_cases hname : y = name
      · rw [if_pos (beq_iff_eq.mpr hname)] at hk
        cases hk
        exact ⟨t, [], Δ, by rw [hname]; rfl, fun b hb => absurd hb List.not_mem_nil, rfl, ht⟩
      · rw [if_neg (fun he => hname (beq_iff_eq.mp he))] at hk
        obtain ⟨j, hj, rfl⟩ := Option.map_eq_some_iff.mp hk
        obtain ⟨ascribed, inner, outer, rfl, hinner, hlen, hascribed⟩ := ih hrest hj
        refine ⟨ascribed, ⟨some s, y, t⟩ :: inner, outer, rfl, ?_, by rw [List.length_cons, hlen],
          hascribed⟩
        intro b hb
        rcases List.mem_cons.mp hb with rfl | hb
        · exact hname
        · exact hinner b hb

end BoundFields

/-- What the bindings around an output have to do with the walk downstream from it.  They belong to
branches of nodes that are being built. -/
structure Framed (ws : Workspace) (active : List NodeId) (scope : Build.Scope) (o : SocketId)
    (Γ : List Expr.Binding) : Prop where
  names : Γ.map Expr.Binding.name = scope.flatten
  inputs : ∀ b ∈ Γ, ∃ s m, b.tag = some s ∧ ws.graph.owner? s = some m ∧ m ∈ active
  bound : ∀ name site, follow? ws.graph none name o [] = some site → ws.BoundAt Γ name site
  free : ∀ name, follow? ws.graph none name o [] = none → name ∉ scope.flatten

namespace Framed

theorem nil (hend : ws.graph.peer? o = none) : ws.Framed [] [] o [] := by
  have hfollow : ∀ name, follow? ws.graph none name o [] = none := by
    intro name
    rw [follow?_eq]
    simp [consumerNode?, consumer?, hend]
  refine ⟨rfl, fun b hb => absurd hb List.not_mem_nil, fun name site hsite => ?_,
    fun name _ => List.not_mem_nil⟩
  cases (hfollow name).symm.trans hsite

theorem mem_scope_iff (h : ws.Framed active scope o Γ) :
    name ∈ scope.flatten ↔ follow? ws.graph none name o [] ≠ none := by
  refine ⟨fun hmem hnone => h.free name hnone hmem, fun hne => ?_⟩
  obtain ⟨site, hsite⟩ := Option.ne_none_iff_exists'.mp hne
  obtain ⟨input, ascribed, inner, outer, _, rfl, _⟩ := h.bound name site hsite
  rw [← h.names]
  exact List.mem_map_of_mem (List.mem_append_right _ List.mem_cons_self)

section Step

variable (hF : ws.Framed active scope node.output Γ) (h : ws.graph.WellFormed)
  (hacyclic : ws.graph.Acyclic) (hn : ws.graph.node? n = some node)
include hF h hacyclic hn

/-- What feeds a node stands inside the same bindings, unless this is a branch. -/
theorem input (hs : ws.graph.At s n (.input k)) (hp : ws.graph.peer? s = some o)
    (hsite : ∀ name, siteAt? n node.block (.input k) name = none) :
    ws.Framed (n :: active) scope o Γ := by
  obtain ⟨rank, hrank⟩ := Graph.exists_rank h
  have hfollow : ∀ name, follow? ws.graph none name o [] =
      follow? ws.graph none name node.output [] := by
    intro name
    rw [follow?_input h (fun p c _ hf => hrank p c (hacyclic.not_cyclic p) hf) hn hs hp, hsite,
      Option.none_or]
  refine ⟨hF.names, fun b hb => ?_, fun name site hfound => ?_, fun name hnone => ?_⟩
  · obtain ⟨t, m, ht, hm, hmem⟩ := hF.inputs b hb
    exact ⟨t, m, ht, hm, List.mem_cons_of_mem n hmem⟩
  · exact hF.bound name site ((hfollow name).symm.trans hfound)
  · exact hF.free name ((hfollow name).symm.trans hnone)

/-- A branch puts the names of its fields inside the bindings of its node. -/
theorem branch (hactive : n ∉ active) (hblock : node.block = .caseOf type binders)
    (hs : ws.graph.At s n (.input (k + 1))) (hp : ws.graph.peer? s = some o)
    (hΔ : ws.BoundFields s (Build.typedNames ws.registry type k (binders.getD k [])) Δ) :
    ws.Framed (n :: active) (binders.getD k [] :: scope) o (Δ ++ Γ) := by
  obtain ⟨rank, hrank⟩ := Graph.exists_rank h
  have howner : ws.graph.owner? s = some n := Graph.owner?_eq_some_iff.mpr ⟨_, hs⟩
  have hnames : Δ.map Expr.Binding.name = binders.getD k [] := by
    rw [hΔ.names_eq, Build.map_fst_typedNames]
  have hfollow : ∀ name, follow? ws.graph none name o [] =
      (((binders.getD k []).idxOf? name).map fun field => ⟨n, type, k, field⟩).or
        (follow? ws.graph none name node.output []) := by
    intro name
    rw [follow?_input h (fun p c _ hf => hrank p c (hacyclic.not_cyclic p) hf) hn hs hp, hblock,
      siteAt?, List.getD_eq_getElem?_getD]
    cases binders[k]? <;> rfl
  refine ⟨?_, fun b hb => ?_, fun name site hfound => ?_, fun name hnone => ?_⟩
  · rw [List.map_append, hF.names, hnames, List.flatten_cons]
  · rcases List.mem_append.mp hb with hb | hb
    · exact ⟨s, n, hΔ.tag_eq hb, howner, List.mem_cons_self⟩
    · obtain ⟨t, m, ht, hm, hmem⟩ := hF.inputs b hb
      exact ⟨t, m, ht, hm, List.mem_cons_of_mem n hmem⟩
  · rw [hfollow] at hfound
    cases hidx : (binders.getD k []).idxOf? name with
    | some field =>
      rw [hidx] at hfound
      cases hfound
      obtain ⟨ascribed, inner, outer, rfl, hinner, hlen, hascribed⟩ := hΔ.split hidx
      refine ⟨s, ascribed, inner, outer ++ Γ, (h.place ..).mpr hs, by simp, hinner, ?_, hascribed⟩
      rw [← hlen, List.countP_eq_length]
      intro b hb
      rw [decide_eq_true_eq]
      exact hΔ.tag_eq (List.mem_append_left _ hb)
    | none =>
      -- The binding further out is tagged with an input of another node, which is being built.
      rw [hidx] at hfound
      obtain ⟨input, ascribed, inner, outer, hinput, rfl, hinner, hcount, hascribed⟩ :=
        hF.bound name site hfound
      have hne : some s ≠ some input := by
        intro heq
        cases heq
        obtain ⟨t, m, ht, hm, hmem⟩ :=
          hF.inputs ⟨some s, name, ascribed⟩ (List.mem_append_right _ List.mem_cons_self)
        cases ht
        rw [howner] at hm
        cases hm
        exact hactive hmem
      refine ⟨input, ascribed, Δ ++ inner, outer, hinput, by simp, fun b hb => ?_, ?_, hascribed⟩
      · rcases List.mem_append.mp hb with hb | hb
        · rintro rfl
          have hmem : b.name ∈ binders.getD k [] := hnames ▸ List.mem_map_of_mem hb
          exact absurd hmem (List.idxOf?_eq_none_iff.mp hidx)
        · exact hinner b hb
      · rw [List.countP_append, hcount, List.countP_eq_zero.mpr, Nat.zero_add]
        intro b hb
        rw [decide_eq_true_eq, hΔ.tag_eq hb]
        exact hne
  · rw [hfollow, Option.or_eq_none_iff, Option.map_eq_none_iff] at hnone
    rw [List.flatten_cons, List.mem_append, not_or]
    exact ⟨List.idxOf?_eq_none_iff.mp hnone.1, hF.free name hnone.2⟩

end Step

end Framed

/-! ## Inputs -/

theorem hole_reports (hs : ws.graph.At s n (.input k))
    (hp : ws.graph.peer? s = none) :
    ws.Reports (fun e => [e]) F (ws.graph.UpstreamOf s) (pure (Build.hole s)) := by
  refine .pure (alike_head fun node hnode => ?_) fun m _ hm _ => absurd hm (Graph.not_upstreamOf hp)
  rw [Graph.source?_unlinked hs hp] at hnode
  cases hnode

/-- The expressions of inputs are reported one after another, if no node is upstream of two of
them. -/
theorem reports_cons {step : Build.Step (Expr String)}
    {steps : Build.Step (List (Expr String))}
    (hstep : ws.Reports (fun e => [e]) F (ws.graph.UpstreamOf s) step)
    (hsteps : ws.Reports id F (fun m => ∃ t ∈ ss, ws.graph.UpstreamOf t m) steps)
    (hunique : ∀ t ∈ ss, ∀ m, ws.graph.UpstreamOf s m → ¬ ws.graph.UpstreamOf t m) :
    ws.Reports id F (fun m => ∃ t ∈ s :: ss, ws.graph.UpstreamOf t m)
      (step >>= fun e => steps >>= fun es => pure (e :: es)) := by
  refine (hstep.seq hsteps ?_ fun e es => ⟨rfl, fun _ => rfl⟩).congr (fun m _ _ _ => ?_)
    fun Γ hΓ => hΓ
  · rintro m hm ⟨t, ht, hmt⟩
    exact hunique t ht m hm hmt
  · exact List.exists_mem_cons_iff ..

theorem inputs_reports
    (hunique : ss.Pairwise fun s t => ∀ m, ws.graph.UpstreamOf s m → ¬ ws.graph.UpstreamOf t m)
    (hss : ∀ s ∈ ss, ws.Reports (fun e => [e]) F (ws.graph.UpstreamOf s)
      (Build.input ws.graph build scope s)) :
    ws.Reports id F (fun m => ∃ s ∈ ss, ws.graph.UpstreamOf s m)
      (Build.inputs ws.graph build scope ss) := by
  induction ss with
  | nil =>
    refine .pure ⟨rfl, fun _ => rfl⟩ ?_
    rintro m _ ⟨s, hs, _⟩
    exact absurd hs List.not_mem_nil
  | cons s rest ih =>
    obtain ⟨hfirst, hrest⟩ := List.pairwise_cons.mp hunique
    exact reports_cons (hss s List.mem_cons_self)
      (ih hrest fun t ht => hss t (List.mem_cons_of_mem s ht)) hfirst

theorem inputs_pairwise (h : ws.graph.WellFormed) (hacyclic : ws.graph.Acyclic)
    (hn : ws.graph.node? n = some node) : node.inputs.Pairwise fun s t => ∀ m,
      ws.graph.UpstreamOf s m → ¬ ws.graph.UpstreamOf t m := by
  have hnodup : node.inputs.Nodup :=
    (Graph.sockets_nodup h hn).sublist (List.sublist_append_left ..)
  refine hnodup.imp_of_mem fun hs ht hne m hms hmt => ?_
  exact hne (hms.unique h hacyclic hn hs ht hmt)

/-! ## Branches -/

/-- Binding the names of a branch reports nothing, and draws a variable for each field that is not
set. -/
theorem bindNames_report {names : List (String × Option Ty)}
    (hnames : ∀ q ∈ names, ∀ t, q.2 = some t → ∀ v ∈ t.leaves, v < ws.supply.next)
    {body : Expr String} (htag : body.tag = some s) (hp : ws.supply.next ≤ p.supply.next) :
    (Build.bindNames names body p).2.errors = p.errors ∧
      p.supply.next ≤ (Build.bindNames names body p).2.supply.next ∧
      (∀ lo ≤ p.supply.next, ws.Drawn lo p.supply.next body.ascriptions →
        ws.Drawn lo (Build.bindNames names body p).2.supply.next
          (Build.bindNames names body p).1.ascriptions) ∧
      ∃ Δ, ws.BoundFields s names Δ ∧
        ∀ Γ, ws.graph.patternUses Γ (Build.bindNames names body p).1 =
          ws.graph.patternUses (Δ ++ Γ) body := by
  induction names generalizing body p with
  | nil => exact ⟨rfl, Nat.le_refl _, fun _ _ hdrawn => hdrawn, [], .nil, fun _ => rfl⟩
  | cons q rest ih =>
    obtain ⟨name, field⟩ := q
    obtain ⟨hfirst, hrest⟩ := List.forall_mem_cons.mp hnames
    cases field with
    | some t =>
      obtain ⟨herrors, hsupply, hdrawn, Δ, hΔ, huses⟩ :=
        @ih p hrest (.bind body.tag name t body) htag hp
      refine ⟨herrors, hsupply, fun lo hlo hbody => hdrawn lo hlo (hbody.cons_below (hfirst t rfl)),
        ⟨some s, name, t⟩ :: Δ, .cons ⟨rfl, rfl, rfl⟩ hΔ, fun Γ => ?_⟩
      rw [← htag]
      exact huses Γ
    | none =>
      let v := p.supply.next
      obtain ⟨herrors, hsupply, hdrawn, Δ, hΔ, huses⟩ :=
        @ih { p with supply := p.supply.fresh.2 } hrest (.bind body.tag name (.var v) body) htag
          (Nat.le_succ_of_le hp)
      refine ⟨herrors, Nat.le_trans (Nat.le_succ v) hsupply, fun lo hlo hbody =>
        hdrawn lo (Nat.le_succ_of_le hlo) (hbody.cons_fresh hlo hp),
        ⟨some s, name, .var v⟩ :: Δ, .cons ⟨rfl, rfl, v, rfl, hp⟩ hΔ, fun Γ => ?_⟩
      rw [← htag]
      exact huses Γ

theorem typedNames_below (hbelow : ws.registry.Below ws.supply) (type : String) (branch : Nat)
    (names : List String) :
    ∀ q ∈ Build.typedNames ws.registry type branch names, ∀ t, q.2 = some t →
      ∀ v ∈ t.leaves, v < ws.supply.next := by
  intro q hq t ht
  obtain ⟨field, _, rfl⟩ := List.mem_mapIdx.mp hq
  exact hbelow.fieldType? ht

theorem arms_reports
    (hunique : ss.Pairwise fun s t => ∀ m, ws.graph.UpstreamOf s m → ¬ ws.graph.UpstreamOf t m)
    (hss : ∀ i s, ss[i]? = some s → ws.Reports (fun e => [e]) F (ws.graph.UpstreamOf s)
      (Build.arm ws.graph ws.registry build scope type (binders.getD (k + i) []) (k + i) s)) :
    ws.Reports id F (fun m => ∃ s ∈ ss, ws.graph.UpstreamOf s m)
      (Build.arms ws.graph ws.registry build scope type binders k ss) := by
  induction ss generalizing k with
  | nil =>
    refine .pure ⟨rfl, fun _ => rfl⟩ ?_
    rintro m _ ⟨s, hs, _⟩
    exact absurd hs List.not_mem_nil
  | cons s rest ih =>
    obtain ⟨hfirst, hrest⟩ := List.pairwise_cons.mp hunique
    refine reports_cons (hss 0 s rfl) (ih hrest fun i t ht => ?_) hfirst
    rw [Nat.add_right_comm]
    exact hss (i + 1) t ht

theorem alike_joinArms
    (ho : ∀ node, ws.graph.source? o = some node → node.block.localName? = none)
    (es : List (Expr String)) : ws.Alike [Build.joinArms o es] es := by
  induction es with
  | nil => exact alike_head ho
  | cons e rest ih =>
    cases rest with
    | nil => exact ⟨rfl, fun _ => rfl⟩
    | cons e' rest => exact (alike_applyAll ho _).trans (ih.append_left [e])

/-! ## Nodes and outputs -/

theorem applyAll_shape (output : SocketId) (name : String) (args : List (Expr String)) :
    ((Expr.var (some output) name).applyAll args).tag = some output ∧
      ((Expr.var (some output) name).applyAll args).isBinding = false :=
  ⟨Expr.tag_applyAll .., Expr.isBinding_applyAll rfl args⟩

theorem node_shape (g : Graph) (r : Registry) (build : Build.Builder) (scope : Build.Scope)
    (output : SocketId) (node : Node) :
    Build.Yields (Build.node g r build scope output node) fun e =>
      e.tag = some output ∧ e.isBinding = false := by
  intro p
  rw [Build.node]
  cases node.block with
  | literal ty value => exact ⟨rfl, rfl⟩
  | function name => exact applyAll_shape ..
  | ctor name => exact applyAll_shape ..
  | list items => exact applyAll_shape ..
  | localVar name =>
    simp only
    split
    · exact ⟨rfl, rfl⟩
    · exact ⟨rfl, rfl⟩
  | caseOf type binders =>
    simp only
    cases node.inputs with
    | nil => exact ⟨rfl, rfl⟩
    | cons s branches => exact applyAll_shape ..

theorem localVar_inputs {r : Registry} (hsound : node.Sound r)
    (hblock : node.block = .localVar name) :
    node.inputs = [] := by
  obtain ⟨htyped, v, hsignature⟩ := hsound.localVar name hblock
  have hlength := hsound.length_inputs htyped
  rw [hsignature] at hlength
  exact List.length_eq_zero_iff.mp hlength

theorem localVar_reports (h : ws.graph.WellFormed) (hn : ws.graph.node? n = some node)
    (hsound : node.Sound ws.registry) (hblock : node.block = .localVar name) :
    ws.Reports (fun e => [e]) (ws.Framed active scope node.output) (ws.graph.Upstream · n)
      (if scope.any (·.contains name) then pure (.var (some node.output) name)
        else Build.reportHole (.invalidSignature (.unboundLocal name)) node.output) := by
  have hK : ∀ m, ws.graph.Upstream m n ↔ m = n := by
    intro m
    rw [Graph.upstream_iff h hn, localVar_inputs hsound hblock]
    simp
  have hsite : bindingSite? ws.graph none n = follow? ws.graph none name node.output [] := by
    simp only [bindingSite?, hn, hblock]
  have hlocal : node.block.localName? = some name := by rw [hblock]; rfl
  have huses : ∀ Γ name', ws.graph.patternUses Γ (.var (some node.output) name') =
      [⟨node, name', Γ⟩] := by
    intro Γ name'
    rw [Graph.patternUses, Option.bind_some, Graph.source?_node h hn]
    simp [hlocal]
  have hdrawn : ∀ v, ws.Drawn v v [] := fun v => ⟨.nil, fun w hw => absurd hw List.not_mem_nil⟩
  intro p hle
  by_cases hscope : name ∈ scope.flatten
  · rw [if_pos (by simpa using hscope)]
    refine ⟨Nat.le_refl _, hdrawn _, [], (List.append_nil _).symm, fun Γ hΓ => ?_⟩
    obtain ⟨site, hfound⟩ := Option.ne_none_iff_exists'.mp (hΓ.mem_scope_iff.mp hscope)
    have hrepresents : ws.Represents (n, node) ⟨node, name, Γ⟩ := by
      refine ⟨rfl, ?_⟩
      rw [hsite, hfound]
      exact ⟨hlocal, hΓ.bound name site hfound⟩
    have herror : ws.unboundError? n node = none := by
      simp [unboundError?, binding?, hblock, hsite, hfound]
    have htallies := tallies_singleton hn (hlocal ▸ rfl) hK hrepresents
    rw [herror, ← huses] at htallies
    rw [List.flatMap_singleton]
    exact htallies
  · rw [if_neg (by simpa using hscope)]
    refine ⟨Nat.le_refl _, hdrawn _, [.invalidSignature (.unboundLocal name)], rfl, fun Γ hΓ => ?_⟩
    have hfound : follow? ws.graph none name node.output [] = none :=
      Classical.byContradiction fun hne => hscope (hΓ.mem_scope_iff.mpr hne)
    have hrepresents : ws.Represents (n, node) ⟨node, Expr.undefName, Γ⟩ := by
      refine ⟨rfl, ?_⟩
      rw [hsite, hfound]
    have herror : ws.unboundError? n node = some (.invalidSignature (.unboundLocal name)) := by
      simp [unboundError?, binding?, hblock, hsite, hfound]
    have htallies := tallies_singleton hn (hlocal ▸ rfl) hK hrepresents
    rw [herror, ← huses] at htallies
    rw [List.flatMap_singleton]
    exact htallies

theorem source_localName? (h : ws.graph.WellFormed) (hn : ws.graph.node? n = some node)
    (hnone : node.block.localName? = none) :
    ∀ node', ws.graph.source? node.output = some node' → node'.block.localName? = none := by
  intro node' hnode'
  rw [Graph.source?_node h hn] at hnode'
  cases hnode'
  exact hnone

/-- The builder reports what is upstream of the outputs that feed a node. -/
def BuildsFeeds (ws : Workspace) (n : NodeId) (active : List NodeId) (build : Build.Builder) :
    Prop :=
  ∀ scope o m, ws.graph.At o m .output → ws.graph.Feeds m n →
    Build.Yields (build scope o) (fun e => e.tag = some o ∧ e.isBinding = false) ∧
    ws.Reports (fun e => [e]) (ws.Framed (n :: active) scope o) (fun k => ws.graph.Upstream k m)
      (build scope o)

section Node

variable (h : ws.graph.WellFormed) (hacyclic : ws.graph.Acyclic)
  (hn : ws.graph.node? n = some node) (hbuild : ws.BuildsFeeds n active build)

include h hbuild in
theorem input_linked_reports (hs : ws.graph.At s n (.input k)) (hp : ws.graph.peer? s = some o) :
    ws.Reports (fun e => [e]) (ws.Framed (n :: active) scope o) (ws.graph.UpstreamOf s)
      (Build.input ws.graph build scope s) := by
  obtain ⟨m, ho, _, hfeeds⟩ := Graph.exists_feeds h hs hp
  obtain ⟨hshape, hreports⟩ := hbuild scope o m ho hfeeds
  rw [Build.input, hp]
  intro p hle
  obtain ⟨htag, hbinding⟩ := hshape p
  have hsource :
      (some s).bind ws.graph.source? = (build scope o p).1.tag.bind ws.graph.source? := by
    rw [htag]
    exact Graph.source?_input hs hp ho
  refine (hreports p hle).congr ⟨?_, fun Γ => ?_⟩ (fun k _ _ _ => ?_) fun Γ hΓ => hΓ
  · simp only [List.flatMap_singleton]
    exact Expr.ascriptions_retag ..
  · simp only [List.flatMap_singleton]
    exact Graph.patternUses_retag hbinding hsource
  · constructor
    · rintro ⟨o', m', hp', ho', hpath⟩
      rw [hp] at hp'
      cases hp'
      obtain ⟨rfl, _⟩ := ho.unique ho'
      exact hpath
    · exact fun hpath => ⟨o, m, hp, ho, hpath⟩

include h hacyclic hn hbuild

theorem input_reports (hs : ws.graph.At s n (.input k))
    (hsite : ∀ name, siteAt? n node.block (.input k) name = none) :
    ws.Reports (fun e => [e]) (ws.Framed active scope node.output) (ws.graph.UpstreamOf s)
      (Build.input ws.graph build scope s) := by
  cases hp : ws.graph.peer? s with
  | none =>
    rw [Build.input, hp]
    exact hole_reports hs hp
  | some o =>
    exact (input_linked_reports h hbuild hs hp).congr (fun _ _ _ _ => .rfl)
      fun Γ hΓ => hΓ.input h hacyclic hn hs hp hsite

theorem arm_reports (hbelow : ws.registry.Below ws.supply) (hactive : n ∉ active)
    (hblock : node.block = .caseOf type binders) (hs : ws.graph.At s n (.input (k + 1))) :
    ws.Reports (fun e => [e]) (ws.Framed active scope node.output) (ws.graph.UpstreamOf s)
      (Build.arm ws.graph ws.registry build scope type (binders.getD k []) k s) := by
  cases hp : ws.graph.peer? s with
  | none =>
    rw [Build.arm, hp]
    exact hole_reports hs hp
  | some o =>
    rw [Build.arm, hp]
    intro p hle
    have hinput : ws.Report (ws.Framed (n :: active) (binders.getD k [] :: scope) o) _ _ _ _ :=
      input_linked_reports h hbuild hs hp p hle
    have htag : (Build.input ws.graph build (binders.getD k [] :: scope) s p).1.tag = some s := by
      rw [Build.input, hp]
      exact Expr.tag_retag ..
    obtain ⟨herrors, hsupply, hdrawn, Δ, hΔ, huses⟩ :=
      bindNames_report (typedNames_below hbelow type k (binders.getD k [])) htag
        (Nat.le_trans hle hinput.supply)
    obtain ⟨errors, hreported, htally⟩ := hinput.tally
    refine ⟨Nat.le_trans hinput.supply hsupply, ?_, errors, herrors.trans hreported, fun Γ hΓ => ?_⟩
    · have hbody := hinput.drawn
      rw [List.flatMap_singleton] at hbody ⊢
      exact hdrawn _ hinput.supply hbody
    · have hbody := htally (Δ ++ Γ) (hΓ.branch h hacyclic hn hactive hblock hs hp hΔ)
      rw [List.flatMap_singleton] at hbody ⊢
      exact (huses Γ).symm ▸ hbody

theorem scrutinee_reports (hblock : node.block = .caseOf type binders)
    (hs : ws.graph.At s n (.input 0)) :
    ws.Reports (fun e => [e]) (ws.Framed active scope node.output) (ws.graph.UpstreamOf s)
      (Build.scrutinee ws.graph build scope type node.output s) := by
  have ho := source_localName? h hn (by rw [hblock]; rfl)
  rw [Build.scrutinee]
  cases hp : ws.graph.peer? s with
  | none =>
    exact .pure ⟨rfl, fun _ => rfl⟩ fun m _ hm _ => absurd hm (Graph.not_upstreamOf hp)
  | some o =>
    refine (input_reports h hacyclic hn hbuild hs fun _ => by rw [hblock]; rfl).map fun e => ?_
    refine (alike_applyAll ho _).trans ⟨?_, fun Γ => ?_⟩
    · simp [Expr.ascriptions]
    · simp [Graph.patternUses]

theorem caseExpr_reports (hbelow : ws.registry.Below ws.supply) (hactive : n ∉ active)
    (hblock : node.block = .caseOf type binders) :
    ws.Reports (fun e => [e]) (ws.Framed active scope node.output)
      (fun m => ∃ s ∈ node.inputs, ws.graph.UpstreamOf s m)
      (Build.caseExpr ws.graph ws.registry build scope type binders node.output node.inputs) := by
  have ho := source_localName? h hn (by rw [hblock]; rfl)
  have hinputs : ∀ i s, node.inputs[i]? = some s → ws.graph.At s n (.input i) :=
    fun i s hs => (Graph.At.input_eq h hn).mpr hs
  have hpairwise := inputs_pairwise h hacyclic hn
  cases hlist : node.inputs with
  | nil =>
    refine .pure (alike_head ho) ?_
    rintro m _ ⟨s, hs, _⟩
    exact absurd hs List.not_mem_nil
  | cons s branches =>
    rw [hlist] at hinputs hpairwise
    obtain ⟨hfirst, hrest⟩ := List.pairwise_cons.mp hpairwise
    have harms : ∀ i b, branches[i]? = some b → ws.Reports (fun e => [e])
        (ws.Framed active scope node.output) (ws.graph.UpstreamOf b)
        (Build.arm ws.graph ws.registry build scope type (binders.getD (0 + i) []) (0 + i) b) := by
      intro i b hb
      rw [Nat.zero_add]
      exact arm_reports h hacyclic hn hbuild hbelow hactive hblock (hinputs (i + 1) b hb)
    refine ((scrutinee_reports h hacyclic hn hbuild hblock (hinputs 0 s rfl)).seq
      (arms_reports hrest harms) ?_ fun e es => ?_).congr (fun m _ _ _ => ?_) fun Γ hΓ => hΓ
    · rintro m hm ⟨t, ht, hmt⟩
      exact hfirst t ht m hm hmt
    · exact (alike_applyAll ho _).trans ((alike_joinArms ho es).append_left [e])
    · exact List.exists_mem_cons_iff ..

theorem apply_reports (hhead : node.block.head? = some name) :
    ws.Reports (fun e => [e]) (ws.Framed active scope node.output)
      (fun m => ∃ s ∈ node.inputs, ws.graph.UpstreamOf s m)
      (Build.inputs ws.graph build scope node.inputs >>= fun args =>
        pure ((Expr.var (some node.output) name).applyAll args)) := by
  have hnone : node.block.localName? = none := by
    cases hblock : node.block with
    | localVar _ =>
      rw [hblock] at hhead
      cases hhead
    | _ => rfl
  have ho := source_localName? h hn hnone
  refine (inputs_reports (inputs_pairwise h hacyclic hn) fun s hs => ?_).map fun args =>
    alike_applyAll ho args
  obtain ⟨k, hk⟩ := (Graph.mem_inputs_iff h hn).mp hs
  refine input_reports h hacyclic hn hbuild hk fun name => ?_
  unfold siteAt?
  split
  · next hblock _ =>
    rw [hblock] at hhead
    cases hhead
  · rfl

theorem node_reports (hsound : ws.Sound) (hclosed : ws.LiteralsClosed)
    (hbelow : ws.registry.Below ws.supply) (hactive : n ∉ active) :
    ws.Reports (fun e => [e]) (ws.Framed active scope node.output) (ws.graph.Upstream · n)
      (Build.node ws.graph ws.registry build scope node.output node) := by
  -- A node that is no pattern variable adds none to those upstream of its inputs.
  have hothers : node.block.localName? = none → ∀ m node', ws.graph.node? m = some node' →
      node'.block.localName?.isSome →
      (ws.graph.Upstream m n ↔ ∃ s ∈ node.inputs, ws.graph.UpstreamOf s m) := by
    intro hnone m node' hm hlocal
    rw [Graph.upstream_iff h hn, or_iff_right]
    rintro rfl
    rw [hn] at hm
    cases hm
    rw [hnone] at hlocal
    cases hlocal
  have happly : ∀ name, node.block.head? = some name → node.block.localName? = none →
      ws.Reports (fun e => [e]) (ws.Framed active scope node.output) (ws.graph.Upstream · n)
        (Build.inputs ws.graph build scope node.inputs >>= fun args =>
          pure ((Expr.var (some node.output) name).applyAll args)) := fun name hhead hnone =>
    (apply_reports h hacyclic hn hbuild hhead).congr (hothers hnone) fun Γ hΓ => hΓ
  rw [Build.node]
  cases hblock : node.block with
  | literal ty value =>
    refine .pure ⟨rfl, fun _ => rfl⟩ fun m node' hm hnode' => ?_
    rw [Graph.upstream_iff h hn, hclosed n node ty value hn hblock] at hm
    obtain rfl : m = n := by simpa using hm
    rw [hn] at hnode'
    cases hnode'
    rw [hblock]
    rfl
  | function name => exact happly name (by rw [hblock]; rfl) (by rw [hblock]; rfl)
  | ctor name => exact happly name (by rw [hblock]; rfl) (by rw [hblock]; rfl)
  | list items => exact happly _ (by rw [hblock]; rfl) (by rw [hblock]; rfl)
  | localVar name => exact localVar_reports h hn (hsound.nodes n node hn) hblock
  | caseOf type binders =>
    exact (caseExpr_reports h hacyclic hn hbuild hbelow hactive hblock).congr
      (hothers (by rw [hblock]; rfl)) fun Γ hΓ => hΓ

end Node

/-- The nodes on the way from where the building began have higher ranks, so the builder meets none
of them again. -/
theorem output_reports (hacyclic : ws.graph.Acyclic) (hsound : ws.Sound)
    (hclosed : ws.LiteralsClosed) (hbelow : ws.registry.Below ws.supply) {rank : NodeId → Nat}
    (hrank : ∀ p c, ws.graph.Feeds p c → rank p < rank c) (hs : ws.graph.At s n .output)
    (hactive : ∀ a ∈ active, rank n < rank a) :
    Build.Yields (Build.output ws.graph ws.registry active scope s) (fun e =>
      e.tag = some s ∧ e.isBinding = false) ∧
    ws.Reports (fun e => [e]) (ws.Framed active scope s) (ws.graph.Upstream · n)
      (Build.output ws.graph ws.registry active scope s) := by
  induction hk : rank n using Nat.strongRecOn generalizing n s active scope with
  | ind k ih =>
    have h := hsound.graph
    obtain ⟨node, hn⟩ := hs.node? h
    obtain rfl := (Graph.At.output_eq h hn).mp hs
    have hbuild : ws.BuildsFeeds n active fun scope s =>
        Build.output ws.graph ws.registry (n :: active) scope s := by
      intro scope o m ho hfeeds
      have hlt : rank m < rank n := hrank m n hfeeds
      refine ih (rank m) (hk ▸ hlt) ho (fun a ha => ?_) rfl
      rcases List.mem_cons.mp ha with rfl | ha
      · exact hlt
      · exact Nat.lt_trans hlt (hactive a ha)
    have hnew : n ∉ active := fun hmem => Nat.lt_irrefl _ (hactive n hmem)
    have hshape := node_shape ws.graph ws.registry
      (fun scope s => Build.output ws.graph ws.registry (n :: active) scope s)
      scope node.output node
    rw [output_new hn (Graph.owner?_eq_some_iff.mpr ⟨_, hs⟩) hnew]
    refine ⟨hshape.bind fun e he => ?_, Reports.retag_self ?_ fun p => (hshape p).1⟩
    · rw [Expr.retag_self he.1]
      exact .pure he
    · exact node_reports h hacyclic hn hbuild hsound hclosed hbelow hnew

/-- The builder and the search for binding sites agree.  The names in the expression of an output
that feeds nothing stand for the pattern variables upstream of it, one for each.  A variable that
nothing binds is a hole and is reported, and nothing else is reported.  The name of any other
variable is bound where the search finds it bound, with the type of that field, or with a variable
that is used for no other field. -/
theorem build_scopes (h : ws.Unattached) {root : SocketId} {r : NodeId}
    (hroot : ws.graph.At root r .output) (hend : ws.graph.peer? root = none) :
    (∃ locals : List (NodeId × Node), locals.Nodup ∧
      (∀ e, e ∈ locals ↔ ws.graph.Upstream e.1 r ∧ ws.graph.node? e.1 = some e.2 ∧
        e.2.block.localName?.isSome) ∧
      List.Forall₂ ws.Represents locals (ws.graph.patternUses [] (ws.build root).expr) ∧
      (ws.build root).errors = locals.filterMap fun e => ws.unboundError? e.1 e.2) ∧
    (ws.newVars (ws.build root).expr.ascriptions).Nodup := by
  have hvisited := h.visited
  obtain ⟨rank, hrank⟩ := Graph.exists_rank hvisited.sound.graph
  obtain ⟨_, hreports⟩ := output_reports h.acyclic hvisited.sound hvisited.literalsClosed
    hvisited.stocked.below (fun p c hf => hrank p c (h.acyclic.not_cyclic p) hf) hroot
    fun a ha => absurd ha List.not_mem_nil
  have hreport := hreports { supply := ws.supply } (Nat.le_refl _)
  obtain ⟨errors, herrors, htally⟩ := hreport.tally
  have htallies := htally [] (.nil hend)
  have hdrawn := hreport.drawn
  rw [List.flatMap_singleton] at htallies hdrawn
  obtain ⟨locals, hnodup, hmem, hrepresents, rfl⟩ := htallies
  exact ⟨⟨locals, hnodup, hmem, hrepresents, herrors⟩, hdrawn.1⟩

/-- Cases in a case.  The inner ones bind `y` again, but not around the value that they look at. -/
def nestedCases : List Action :=
  [.defineType "Shape" [⟨"Circle", [some (.lit "Number" []), none]⟩, ⟨"Dot", []⟩],
    .addNode (.caseOf "Shape" [["x", "y"], []]), .addNode (.caseOf "Shape" [["y", "z"], []]),
    .addNode (.localVar "y"), .addNode (.localVar "y"), .addNode (.localVar "x"),
    .connect 4 2, .connect 8 6, .connect 9 5, .connect 10 3]

/-- The variable in the branch that binds no name is a hole. -/
theorem build_scopes_nestedCases :
    ∃ ws : Workspace, empty.runAll nestedCases = some ws ∧ ws.Unattached ∧
      ws.graph.At 0 0 .output ∧ ws.graph.peer? 0 = none ∧
      (ws.build 0).errors = [.invalidSignature (.unboundLocal "x")] ∧
      (ws.graph.patternUses [] (ws.build 0).expr).map (fun use =>
        (use.name, use.bindings.map Expr.Binding.tag)) =
        [("y", [some 2, some 2]), ("y", [some 6, some 6, some 2, some 2]),
          (Expr.undefName, [])] ∧
      ∃ locals : List (NodeId × Node),
        (∀ e, e ∈ locals ↔ ws.graph.Upstream e.1 0 ∧ ws.graph.node? e.1 = some e.2 ∧
          e.2.block.localName?.isSome) ∧
        List.Forall₂ ws.Represents locals (ws.graph.patternUses [] (ws.build 0).expr) ∧
        (ws.build 0).errors = locals.filterMap fun e => ws.unboundError? e.1 e.2 := by
  have hchecks : (empty.runAll nestedCases).any (fun ws =>
      (ws.graph.peer? 0).isNone &&
        (ws.build 0).errors = [.invalidSignature (.unboundLocal "x")] &&
        (ws.graph.patternUses [] (ws.build 0).expr).map (fun use =>
          (use.name, use.bindings.map Expr.Binding.tag)) =
          [("y", [some 2, some 2]), ("y", [some 6, some 6, some 2, some 2]),
            (Expr.undefName, [])] &&
        (ws.graph.socket? 0).any fun socket =>
          socket.node = 0 && socket.role = .output) = true := by
    simp only [nestedCases, runAll, Action.run_defineType]
    cbv
  obtain ⟨ws, hrun, hchecks⟩ := (Option.any_eq_true _ _).mp hchecks
  simp only [Bool.and_eq_true, Option.isNone_iff_eq_none, decide_eq_true_eq] at hchecks
  obtain ⟨⟨⟨hend, herrors⟩, huses⟩, hsocket⟩ := hchecks
  obtain ⟨socket, hsocket, hplace⟩ := (Option.any_eq_true _ _).mp hsocket
  have hroot : ws.graph.At 0 0 .output := ⟨socket, hsocket, by simpa using hplace⟩
  have hunattached : ws.Unattached := Unattached.empty.runAll (by simp [nestedCases]) hrun
  obtain ⟨⟨locals, _, hmem, hrepresents, hreported⟩, _⟩ := build_scopes hunattached hroot hend
  exact ⟨ws, hrun, hunattached, hroot, hend, herrors, huses, locals, hmem, hrepresents, hreported⟩

end Workspace

end BlockGraph
