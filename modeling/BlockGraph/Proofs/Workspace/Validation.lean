import BlockGraph.Proofs.Unification.Mirroring
import BlockGraph.Proofs.Workspace.Derived
import BlockGraph.Proofs.Workspace.Growth
import Mathlib.Data.Multiset.AddSub

/-!
# The check from scratch and the rebuild

The check from scratch solves all components with one solver, the rebuild each of
them with a solver of its own, and they start from types that were found in
different ways.  Yet both solve the same equations up to a renaming: on the sockets
of a component, the types of the one are those of the other with other names
(`exists_renaming`).  A component has variables of its own, so what the shared
solver holds about earlier components does not matter, and the same links are
blamed for the same reasons.
-/

namespace BlockGraph

/-- A renaming of its variables makes the one error the other. -/
def TypeError.RenamesTo (e e' : TypeError) : Prop :=
  ∃ π : Equiv.Perm TyVar, e' = e.map π

theorem TypeError.RenamesTo.refl (e : TypeError) : e.RenamesTo e := by
  refine ⟨Equiv.refl TyVar, ?_⟩
  have hid : ∀ t : Ty, t.map id = t := TyTerm.bind_self
  cases e <;> simp [TypeError.map, hid]

theorem TypeError.rel_map (π : Equiv.Perm TyVar) (es : List TypeError) :
    Multiset.Rel TypeError.RenamesTo (es : Multiset TypeError)
      (es.map (TypeError.map π) : List TypeError) := by
  induction es with
  | nil => exact .zero
  | cons e rest ih => exact .cons ⟨π, rfl⟩ ih

theorem TypeError.rel_refl (es : List TypeError) :
    Multiset.Rel TypeError.RenamesTo (es : Multiset TypeError) (es : Multiset TypeError) :=
  Multiset.rel_refl_of_refl_on fun e _ => .refl e

theorem TypeError.rel_append {as bs cs ds es fs : List TypeError}
    (h : Multiset.Rel TypeError.RenamesTo (as ++ bs : List TypeError) (es : List TypeError))
    (h' : Multiset.Rel TypeError.RenamesTo (cs ++ ds : List TypeError) (fs : List TypeError)) :
    Multiset.Rel TypeError.RenamesTo (as ++ cs ++ (bs ++ ds) : List TypeError)
      (es ++ fs : List TypeError) := by
  have hadd := h.add h'
  simp only [← Multiset.coe_add] at hadd ⊢
  rwa [add_add_add_comm]

namespace Solver

variable {π : Equiv.Perm TyVar} {V : TyVar → Prop} {s s' : Solver}

theorem Mirrors.solveLinks (h : Mirrors π V s s') {types types' : SocketId → Option Ty}
    {τ : SocketId → Ty} {links : List Link}
    (hends : ∀ l ∈ links, ∀ t, t = l.output ∨ t = l.input → types t = some (τ t) ∧
      types' t = some ((τ t).map π) ∧ ∀ v ∈ (τ t).leaves, V v) :
    (s'.solveLinks types' links).2.map Prod.snd =
        ((s.solveLinks types links).2.map Prod.snd).map (TypeError.map π) ∧
      (s.solveLinks types links).1.Layered ∧
      ∀ x, ¬V x → s.Untouched x → (s.solveLinks types links).1.Untouched x := by
  induction links generalizing s s' with
  | nil => exact ⟨rfl, h.layered, fun _ _ hu => hu⟩
  | cons l rest ih =>
    obtain ⟨hout, hout', houtV⟩ := hends l List.mem_cons_self l.output (.inl rfl)
    obtain ⟨hin, hin', hinV⟩ := hends l List.mem_cons_self l.input (.inr rfl)
    have hrest := fun l' hl' => hends l' (List.mem_cons_of_mem l hl')
    have hstep := h.constrain houtV hinV
    rw [Solver.solveLinks, Solver.solveLinks, hout, hin, hout', hin']
    simp only
    generalize s.constrain (τ l.output) (τ l.input) = r at hstep
    generalize s'.constrain ((τ l.output).map π) ((τ l.input).map π) = r' at hstep
    cases hstep with
    | ok h₁ hkept =>
      obtain ⟨hfail, hlay, hkept'⟩ := ih h₁ hrest
      exact ⟨hfail, hlay, fun x hx hu => hkept' x hx (hkept x hx hu)⟩
    | error e =>
      obtain ⟨hfail, hlay, hkept⟩ := ih h hrest
      exact ⟨by simp only [List.map_cons, hfail], hlay, hkept⟩

end Solver

namespace Workspace

variable {ws ws' ws₁ : Workspace} {m n : NodeId} {node : Node} {τ τ' : Assignment}
  {seeds : List SocketId}

/-! ## Copies of the same types -/

theorem CopyOf.instanceOf {scheme : List Ty} (h : CopyOf node scheme τ) :
    node.InstanceOf scheme τ := by
  obtain ⟨f, _, hτ⟩ := h
  exact ⟨fun v => .var (f v), hτ⟩

/-- Two families of copies of the same types, without variables that nodes share, differ by a
renaming. -/
theorem exists_renaming (h : ws.graph.WellFormed) {nodes : List NodeId}
    (hτ : ∀ n ∈ nodes, ∀ node, ws.graph.node? n = some node →
      CopyOf node (ws.template n node) τ ∧ CopyOf node (ws.template n node) τ')
    (hapart : ∀ s t v, ∀ m ∈ nodes, ∀ n ∈ nodes, ws.graph.owner? s = some m →
      ws.graph.owner? t = some n → v ∈ (τ s).leaves → v ∈ (τ t).leaves → m = n)
    (hapart' : ∀ s t v, ∀ m ∈ nodes, ∀ n ∈ nodes, ws.graph.owner? s = some m →
      ws.graph.owner? t = some n → v ∈ (τ' s).leaves → v ∈ (τ' t).leaves → m = n)
    {sockets : List SocketId} (hsockets : ∀ s ∈ sockets, ∃ n ∈ nodes, ws.graph.owner? s = some n) :
    ∃ π : Equiv.Perm TyVar, ∀ s ∈ sockets, τ' s = (τ s).map π := by
  have hinstance : ∀ σ σ' : Assignment,
      (∀ n ∈ nodes, ∀ node, ws.graph.node? n = some node →
        CopyOf node (ws.template n node) σ ∧ CopyOf node (ws.template n node) σ') →
      (∀ s t v, ∀ m ∈ nodes, ∀ n ∈ nodes, ws.graph.owner? s = some m →
        ws.graph.owner? t = some n → v ∈ (σ s).leaves → v ∈ (σ t).leaves → m = n) →
      ∃ θ : TyVar → Ty, ∀ s, (∃ n ∈ nodes, ws.graph.owner? s = some n) →
        σ' s = (σ s).bind θ := by
    intro σ σ' hσ hapart
    refine exists_common_instance ws.graph.owner? ?_ fun k => ?_
    · rintro s t v ⟨m, hm, hsm⟩ ⟨n, hn, htn⟩ hvs hvt
      rw [hsm, htn, hapart s t v m hm n hn hsm htn hvs hvt]
    · by_cases hk : ∃ n ∈ nodes, k = some n
      · obtain ⟨n, hn, rfl⟩ := hk
        by_cases hlive : ∃ s, ws.graph.owner? s = some n
        · obtain ⟨s, hs⟩ := hlive
          obtain ⟨node, hnode, _⟩ := Graph.owner?_node h hs
          obtain ⟨θ, hθ⟩ :=
            (hσ n hn node hnode).1.instanceOf_iff.mp (hσ n hn node hnode).2.instanceOf
          exact ⟨θ, fun t _ ht => hθ t ((Graph.mem_sockets_iff h hnode).mpr ht)⟩
        · exact ⟨.var, fun t _ ht => absurd ⟨t, ht⟩ hlive⟩
      · refine ⟨.var, ?_⟩
        rintro t ⟨n, hn, htn⟩ ht
        exact absurd ⟨n, hn, ht.symm.trans htn⟩ hk
  obtain ⟨θ, hθ⟩ := hinstance τ τ' hτ hapart
  obtain ⟨θ', hθ'⟩ := hinstance τ' τ (fun n hn node hnode => (hτ n hn node hnode).symm) hapart'
  obtain ⟨π, hπ, _⟩ := exists_perm_of_instances (fun s hs => hθ s (hsockets s hs))
    fun s hs => hθ' s (hsockets s hs)
  exact ⟨π, hπ⟩

/-! ## One component -/

/-- A type that the list gives to a socket of the nodes has the variable. -/
def HasVar (ws : Workspace) (types : List (SocketId × Ty)) (nodes : List NodeId) (v : TyVar) :
    Prop :=
  ∃ t, ∃ n ∈ nodes, ws.graph.owner? t = some n ∧ v ∈ (typeIn types t).leaves

section Components

variable {t : SocketId}

variable {found : List TypeError × List (SocketId × Ty)} (h : ws.Sound)
  (hd : Derived ws ws.graph.nodes.entries ws.supply found)
include h

theorem exists_entry (ht : ws.graph.owner? t = some n) :
    ∃ node, (n, node) ∈ ws.graph.nodes.entries ∧ t ∈ node.sockets := by
  obtain ⟨node, hnode, _⟩ := Graph.owner?_node h.graph ht
  exact ⟨node, (Slots.mem_entries_iff h.graph.nodes).mpr hnode,
    (Graph.mem_sockets_iff h.graph hnode).mpr ht⟩

include hd

theorem Derived.lookup_owner (ht : ws.graph.owner? t = some n) :
    found.2.lookup t = some (typeIn found.2 t) := by
  obtain ⟨node, hmem, ht⟩ := exists_entry h ht
  exact hd.lookup (n, node) hmem t ht

theorem Derived.apart_owner {s : SocketId} {v : TyVar} (hs : ws.graph.owner? s = some m)
    (ht : ws.graph.owner? t = some n) (hvs : v ∈ (typeIn found.2 s).leaves)
    (hvt : v ∈ (typeIn found.2 t).leaves) : m = n := by
  obtain ⟨node, hmem, hs⟩ := exists_entry h hs
  obtain ⟨node', hmem', ht⟩ := exists_entry h ht
  exact hd.apart (m, node) hmem (n, node') hmem' s hs t ht v hvs hvt

variable (hloose : ∀ n node, ws.graph.node? n = some node → node.untyped ≠ none →
  node.signature = none)
include hloose

/-- The types that a rebuild of components starts from are those that the check has found, with
other names. -/
theorem Derived.exists_renaming (hshape : SameShape ws ws') (h' : ws'.Sound)
    (hr : Refreshed ws' ws₁ (ws.graph.component seeds).nodes) :
    ∃ π : Equiv.Perm TyVar, ∀ t n, ws.graph.owner? t = some n →
      n ∈ (ws.graph.component seeds).nodes → ws₁.stored t = (typeIn found.2 t).map π := by
  have hcopies : ∀ n ∈ (ws.graph.component seeds).nodes, ∀ node, ws'.graph.node? n = some node →
      CopyOf node (ws'.template n node) (typeIn found.2) ∧
        CopyOf node (ws'.template n node) ws₁.stored := by
    intro n hn node hnode
    have hnode' : ws.graph.node? n = some node := by rwa [← hshape.node?]
    refine ⟨?_, hr.copyOf hn hnode (h'.nodes n node hnode) (hloose n node hnode')⟩
    rw [hshape.template]
    exact hd.copy (n, node) ((Slots.mem_entries_iff h.graph.nodes).mpr hnode')
  have hsockets : ∀ s ∈ (ws.graph.component seeds).sockets,
      ∃ n ∈ (ws.graph.component seeds).nodes, ws'.graph.owner? s = some n := by
    intro s hs
    obtain ⟨n, hown, hn⟩ := (Graph.mem_component_sockets h.graph).mp hs
    exact ⟨n, hn, (hshape.owner? s).trans hown⟩
  obtain ⟨π, hπ⟩ := Workspace.exists_renaming h'.graph hcopies
    (fun s t v m _ n _ hs ht => hd.apart_owner h ((hshape.owner? s).symm.trans hs)
      ((hshape.owner? t).symm.trans ht)) hr.apart hsockets
  exact ⟨π, fun t n ht hn => hπ t ((Graph.mem_component_sockets h.graph).mpr ⟨n, ht, hn⟩)⟩

/-- The check blames the same links of components as a rebuild of them does, and leaves the
variables of other components alone. -/
theorem Derived.solveLinks (hshape : SameShape ws ws') (h' : ws'.Sound) {order : List NodeId}
    (horder : ws.graph.topologicalOrder (ws.graph.component seeds).nodes = .ok order)
    {solver : Solver} (hlay : solver.Layered)
    (hu : ∀ v, ws.HasVar found.2 (ws.graph.component seeds).nodes v → solver.Untouched v) :
    let solved := solver.solveLinks (fun t => found.2.lookup t) (ws.graph.linksInto order)
    (∃ π : Equiv.Perm TyVar, (ws'.recompute seeds).1 =
        ws.untypedErrors (ws.graph.component seeds).nodes ++
          (solved.2.map Prod.snd).map (TypeError.map π)) ∧
      solved.1.Layered ∧
      ∀ x, ¬ws.HasVar found.2 (ws.graph.component seeds).nodes x → solver.Untouched x →
        solved.1.Untouched x := by
  have hcomponent := Graph.component_congr hshape.outline seeds
  have hr := refreshed_component h'.graph seeds
  have horder' : ws'.graph.topologicalOrder (ws'.graph.component seeds).nodes = .ok order := by
    rw [hcomponent, Graph.topologicalOrder_congr hshape.outline, horder]
  obtain ⟨ws₁, solved', hws₁, hsolved', heq⟩ := recompute_of_order h'.graph horder'
  rw [hcomponent] at hr hws₁
  rw [← hws₁] at hr
  rw [Graph.linksInto_congr hshape.outline] at hsolved'
  obtain ⟨π, hπ⟩ := hd.exists_renaming h hloose hshape h' hr
  have hends : ∀ l ∈ ws.graph.linksInto order, ∀ t, t = l.output ∨ t = l.input →
      ∃ n ∈ (ws.graph.component seeds).nodes, ws.graph.owner? t = some n := by
    intro l hl t ht
    obtain ⟨hw, m, hm, hmem⟩ := (Graph.mem_linksInto_order h.graph horder).mp hl
    rcases ht with rfl | rfl
    · exact ⟨m, hmem, hm⟩
    · obtain ⟨n, k, hn⟩ := h.graph.wired_input _ _ hw
      have hn := Graph.owner?_eq_some_iff.mpr ⟨_, hn⟩
      refine ⟨n, Graph.component_closed h.graph hmem (.single ?_), hn⟩
      exact ⟨l.output, l.input, hm, hn, .inl hw⟩
  have hmirrors : Solver.Mirrors π (ws.HasVar found.2 (ws.graph.component seeds).nodes) solver
      .empty := Solver.mirrors_of_untouched hlay hu
  have htypes : ∀ l ∈ ws.graph.linksInto order, ∀ t, t = l.output ∨ t = l.input →
      found.2.lookup t = some (typeIn found.2 t) ∧
        ws₁.typeOf? t = some ((typeIn found.2 t).map π) ∧ ∀ v ∈ (typeIn found.2 t).leaves,
          ws.HasVar found.2 (ws.graph.component seeds).nodes v := by
    intro l hl t ht
    obtain ⟨n, hn, hown⟩ := hends l hl t ht
    refine ⟨hd.lookup_owner h hown, ?_, fun v hv => ⟨t, n, hn, hown, hv⟩⟩
    rw [← hπ t n hown hn]
    exact typeOf?_eq_stored ((hr.sameShape.owner? t).trans ((hshape.owner? t).trans hown))
  obtain ⟨hfail, hlay', hkept⟩ := hmirrors.solveLinks htypes
  refine ⟨⟨π, ?_⟩, hlay', hkept⟩
  rw [heq, hsolved', hcomponent, hshape.untypedErrors, ← hfail]

/-! ## All components -/

/-- Component by component, the check and the rebuild list the same errors. -/
theorem Derived.solveComponents (cs : List (NodeId × Component))
    (hcs : ∀ e ∈ cs, e.2 = ws.graph.component (ws.graph.socketAt? e.1 .output).toList)
    (hnodup : (cs.flatMap fun e => e.2.nodes).Nodup) (hshape : SameShape ws ws') (h' : ws'.Sound)
    {solver : Solver} (hlay : solver.Layered)
    (hu : ∀ v, ws.HasVar found.2 (cs.flatMap fun e => e.2.nodes) v → solver.Untouched v) :
    Multiset.Rel TypeError.RenamesTo
      (ws.untypedErrors (cs.flatMap fun e => e.2.nodes) ++
        Workspace.solveComponents ws.graph (fun t => found.2.lookup t) solver (cs.map Prod.snd) :
          List TypeError)
      ((ws'.recomputeEach (cs.map Prod.fst)).1 : List TypeError) := by
  induction cs generalizing ws' solver with
  | nil => exact .zero
  | cons e rest ih =>
    obtain ⟨n, c⟩ := e
    let seeds := (ws.graph.socketAt? n .output).toList
    obtain rfl : c = ws.graph.component seeds := hcs (n, c) List.mem_cons_self
    have hrest := fun e he => hcs e (List.mem_cons_of_mem _ he)
    rw [List.flatMap_cons] at hnodup hu ⊢
    obtain ⟨_, hnodup, hdisjoint⟩ := List.nodup_append'.mp hnodup
    have hu' : ∀ v, ws.HasVar found.2 (rest.flatMap fun e => e.2.nodes) v → solver.Untouched v := by
      rintro v ⟨t, m, hm, ht, hv⟩
      exact hu v ⟨t, m, List.mem_append_right _ hm, ht, hv⟩
    have hnext := hshape.trans (recompute_rebuilt h'.graph h'.nodes seeds).sameShape
    have hsound := (h'.prepared seeds).sound h'
    have heach : (ws'.recomputeEach (n :: rest.map Prod.fst)).1 = (ws'.recompute seeds).1 ++
        ((ws'.recompute seeds).2.recomputeEach (rest.map Prod.fst)).1 := by
      simp only [recomputeEach, Graph.socketAt?_congr hshape.outline, seeds]
    have huntyped : ws.untypedErrors ((ws.graph.component seeds).nodes ++
        rest.flatMap fun e => e.2.nodes) = ws.untypedErrors (ws.graph.component seeds).nodes ++
          ws.untypedErrors (rest.flatMap fun e => e.2.nodes) := List.filterMap_append
    rw [List.map_cons, List.map_cons, heach, huntyped]
    cases horder : ws.graph.topologicalOrder (ws.graph.component seeds).nodes with
    | error cycle =>
      have hcycle : ws'.graph.topologicalOrder (ws'.graph.component seeds).nodes =
          .error cycle := by
        rw [Graph.component_congr hshape.outline,
          Graph.topologicalOrder_congr hshape.outline, horder]
      have herrors : (ws'.recompute seeds).1 =
          ws.untypedErrors (ws.graph.component seeds).nodes ++ [.dangling cycle] := by
        rw [recompute_of_cycle h'.graph hcycle, Graph.component_congr hshape.outline,
          hshape.untypedErrors]
      have hsolve : Workspace.solveComponents ws.graph (fun t => found.2.lookup t) solver
          (ws.graph.component seeds :: rest.map Prod.snd) = [.dangling cycle] ++
            Workspace.solveComponents ws.graph (fun t => found.2.lookup t) solver
              (rest.map Prod.snd) := by
        rw [Workspace.solveComponents, horder]
        rfl
      rw [hsolve, herrors]
      exact TypeError.rel_append (TypeError.rel_refl _) (ih hrest hnodup hnext hsound hlay hu')
    | ok order =>
      have hfirst : ∀ v, ws.HasVar found.2 (ws.graph.component seeds).nodes v →
          solver.Untouched v := by
        rintro v ⟨t, m, hm, ht, hv⟩
        exact hu v ⟨t, m, List.mem_append_left _ hm, ht, hv⟩
      obtain ⟨⟨π, herrors⟩, hlay', hkept⟩ :=
        hd.solveLinks h hloose hshape h' horder hlay hfirst
      rw [Workspace.solveComponents, horder, herrors]
      refine TypeError.rel_append ?_ (ih hrest hnodup hnext hsound hlay' fun v hv => ?_)
      · exact (TypeError.rel_refl _).add (TypeError.rel_map π _)
      · refine hkept v ?_ (hu' v hv)
        obtain ⟨t, m, hm, ht, hv⟩ := hv
        rintro ⟨t', m', hm', ht', hv'⟩
        rw [hd.apart_owner h ht' ht hv' hv] at hm'
        exact hdisjoint hm' hm

end Components

/-- All errors of the check, where every node has what a search for its signature finds. -/
theorem validate_rel (h : ws.Sound) (hbelow : ws.registry.Below ws.supply)
    (hfits : ∀ n node, ws.graph.node? n = some node → node.fitsRegistry ws.registry ws.supply) :
    Multiset.Rel TypeError.RenamesTo (ws.validate : Multiset TypeError)
      (ws.resolveAll.1 ++ ws.unboundErrors : List TypeError) := by
  have hlive : ∀ e ∈ ws.graph.nodes.entries, ws.graph.node? e.1 = some e.2 := fun e he =>
    (Slots.mem_entries_iff h.graph.nodes).mp he
  have hd := deriveAll_derived h.graph hlive h.graph.nodes.used_nodup fun e he s' hs' =>
    Node.fitsRegistry_mono hbelow hs' (hfits e.1 e.2 (hlive e he))
  have hloose : ∀ n node, ws.graph.node? n = some node → node.untyped ≠ none →
      node.signature = none :=
    fun n node hn huntyped => Node.fitsRegistry_untyped (hfits n node hn) huntyped
  have hperm := Graph.components_perm h.graph
  have hsolved := hd.solveComponents h hloose ws.graph.components
    (fun e he => (Graph.components_eq he).2) (hperm.nodup_iff.mpr h.graph.nodes.used_nodup)
    (.refl ws) h Solver.empty_layered fun v _ => Solver.empty_untouched v
  -- The errors of the nodes come first in the one list, and component by component in the other.
  have hnodes : (ws.deriveAll ws.graph.nodes.entries ws.supply).1.Perm
      (ws.untypedErrors (ws.graph.components.flatMap fun e => e.2.nodes) ++ ws.unboundErrors) := by
    rw [hd.errors]
    exact (flatMap_errors_perm h.graph).trans ((hperm.symm.filterMap _).append_right _)
  have hall : ws.validate.Perm
      (ws.untypedErrors (ws.graph.components.flatMap fun e => e.2.nodes) ++
        solveComponents ws.graph
          (fun t => (ws.deriveAll ws.graph.nodes.entries ws.supply).2.lookup t) .empty
          (ws.graph.components.map Prod.snd) ++ ws.unboundErrors) := by
    refine (hnodes.append_right _).trans ?_
    rw [List.append_assoc, List.append_assoc]
    exact List.perm_append_comm.append_left _
  rw [Multiset.coe_eq_coe.mpr hall]
  exact hsolved.add (TypeError.rel_refl ws.unboundErrors)

/-- In any workspace that edits lead to, with attached links and cycles or without, the check from
scratch lists the errors of a rebuild of everything and one more for each pattern variable that
nothing binds, if every node has what a search for its signature finds. -/
theorem validate_errors (h : ws.Visited)
    (hfits : ∀ n node, ws.graph.node? n = some node → node.fitsRegistry ws.registry ws.supply) :
    Multiset.Rel TypeError.RenamesTo (ws.validate : Multiset TypeError)
      (ws.resolveAll.1 ++ ws.unboundErrors : List TypeError) :=
  validate_rel h.sound h.stocked.below hfits

/-- A list of a number and a truth value, a pattern variable that nothing binds, a function that
does not exist and a list that is an item of itself. -/
def faultyBlocks : List Action :=
  [.addNode (.list 2), .addNode (.literal (.lit "Number" []) "1"),
    .addNode (.literal (.lit "Bool" []) "true"), .attach 3 1, .attach 4 2,
    .addNode (.localVar "x"), .addNode (.function "missing"), .addNode (.list 1), .attach 7 8]

/-- Each of the four is reported. -/
theorem validate_errors_faultyBlocks :
    ∃ ws : Workspace, empty.runAll faultyBlocks = some ws ∧
      (∀ n node, ws.graph.node? n = some node → node.fitsRegistry ws.registry ws.supply) ∧
      ws.validate.length = 4 ∧ ws.unboundErrors = [.invalidSignature (.unboundLocal "x")] ∧
      Multiset.Rel TypeError.RenamesTo (ws.validate : Multiset TypeError)
        (ws.resolveAll.1 ++ ws.unboundErrors : List TypeError) := by
  have hrun : ((empty.runAll faultyBlocks).any fun ws =>
      (ws.graph.nodes.entries.all fun e => e.2.fitsRegistry ws.registry ws.supply) &&
      ws.validate.length = 4 && ws.unboundErrors = [.invalidSignature (.unboundLocal "x")]) =
        true := by cbv
  simp only [Option.any_eq_true, Bool.and_eq_true, List.all_eq_true, decide_eq_true_eq] at hrun
  obtain ⟨ws, hws, ⟨hall, hcount⟩, hunbound⟩ := hrun
  have hvisited := (Reachable.empty.runAll hws).visited
  have hfits : ∀ n node, ws.graph.node? n = some node →
      node.fitsRegistry ws.registry ws.supply := fun n node hn =>
    hall (n, node) ((Slots.mem_entries_iff hvisited.sound.graph.nodes).mpr hn)
  exact ⟨ws, hws, hfits, hcount, hunbound, validate_errors hvisited hfits⟩

end Workspace
end BlockGraph
