import BlockGraph.Proofs.Graph.Cycles
import BlockGraph.Proofs.Workspace.Derived
import BlockGraph.Proofs.Workspace.Growth

/-!
# Links that fail

A rebuild goes through the links of a component in a fixed order.  A link fails if no
types fit the nodes, the pattern variables, the links accepted before it and this link.
Then both of its ends become invalid with the error, and the link has no other effect:
the other sockets are invalid only for their own nodes, and the types are principal for
all links that were accepted.

`Fits` says what it means that types fit some of the links, and `Isolated` what a
rebuild leaves behind.  A node without a signature asks nothing of the types of its
sockets, and its fresh instance has a variable for each of them.
-/

namespace BlockGraph

namespace Graph

variable {g : Graph}

/-- A link is known by any of its ends. -/
theorem link_eq_of_end (h : g.links.Simple) {l l' : Link} {s : SocketId}
    (hl : g.Wired l.output l.input) (hl' : g.Wired l'.output l'.input)
    (hs : l.output = s ∨ l.input = s) (hs' : l'.output = s ∨ l'.input = s) : l = l' := by
  obtain ⟨a, b⟩ := l
  obtain ⟨a', b'⟩ := l'
  simp only at hl hl' hs hs'
  rcases hs with rfl | rfl
  · rcases hs' with rfl | rfl
    · rw [h.input_unique a' b b' hl hl']
    · exact absurd hl (h.ends_differ a' b' b hl')
  · rcases hs' with rfl | rfl
    · exact absurd hl' (h.ends_differ a a' b' hl)
    · rw [h.output_unique a a' b' hl hl']

theorem linksInto_nodup (h : g.WellFormed) {nodes : List NodeId} (hnodes : nodes.Nodup) :
    (g.linksInto nodes).Nodup := by
  induction nodes with
  | nil => exact .nil
  | cons n rest ih =>
    obtain ⟨hn, hrest⟩ := List.nodup_cons.mp hnodes
    have hsplit : g.linksInto (n :: rest) = g.linksInto [n] ++ g.linksInto rest := by
      simp [linksInto]
    rw [hsplit, List.nodup_append']
    refine ⟨?_, ih hrest, fun l hl hl' => ?_⟩
    · cases hnode : g.node? n with
      | none => simp [linksInto, hnode]
      | some node =>
        simp only [linksInto, List.flatMap_singleton, hnode]
        refine List.Nodup.filterMap (fun b b' l hb hb' => ?_)
          ((sockets_nodup h hnode).sublist (List.sublist_append_left ..))
        obtain ⟨_, _, rfl⟩ := Option.map_eq_some_iff.mp hb
        obtain ⟨_, _, heq⟩ := Option.map_eq_some_iff.mp hb'
        cases heq
        rfl
    · obtain ⟨_, m, hm, hown⟩ := (mem_linksInto h).mp hl
      obtain ⟨_, k, hk, hown'⟩ := (mem_linksInto h).mp hl'
      rw [hown, List.mem_singleton.mp hm] at hown'
      cases hown'
      exact hn hk

end Graph

namespace Workspace

variable {ws ws' ws₀ ws₁ ws₂ : Workspace} {n : NodeId} {node : Node} {nodes : List NodeId}
  {seeds : List SocketId} {K : NodeId → Prop} {A : Assignment} {s : SocketId}
  {links accepted : List Link} {failures : List (Link × TypeError)}

/-! ## Nodes without a signature -/

/-- A node that has a reason for being without a signature has none. -/
def Unsigned (ws : Workspace) : Prop :=
  ∀ n node, ws.graph.node? n = some node → node.untyped ≠ none → node.signature = none

theorem Visited.unsigned (h : ws.Visited) : ws.Unsigned := by
  refine h.of_nodes (fun n node hn => ?_) (fun ws ws' nodes hr hws n node hn huntyped => ?_)
    fun ws ws' hresembles hws n node' hn huntyped => ?_
  · cases (empty_node? n).symm.trans hn
  · rcases hr.node n node hn with ⟨_, _, _, _, hinst⟩ | ⟨hold, _⟩
    · cases hinst with
      | found _ _ => exact absurd rfl huntyped
      | missing _ => rfl
    · exact hws n node hold huntyped
  · obtain ⟨node, hn, hsame⟩ := hresembles n node' hn
    exact hsame.signature (hws n node hn (hsame.untyped ▸ huntyped))

/-! ## Types that fit some of the links -/

/-- The types fit the nodes of a set that have signatures, the pattern variables among them, and
some links. -/
structure Fits (ws : Workspace) (K : NodeId → Prop) (links : List Link) (A : Assignment) :
    Prop where
  node : ∀ n node, K n → ws.graph.node? n = some node → node.untyped = none →
    ∃ scheme, node.scheme? = some scheme ∧ node.InstanceOf scheme A
  scope : ∀ n node, K n → ws.graph.node? n = some node → ws.InScope n node A
  link : ∀ l ∈ links, A l.output = A l.input

theorem fits_iff : ws.Fits K links A ↔
    (∀ n node, K n → ws.graph.node? n = some node →
      (node.untyped = none → ∃ scheme, node.scheme? = some scheme ∧ node.InstanceOf scheme A) ∧
        ws.InScope n node A) ∧
    ∀ l ∈ links, A l.output = A l.input := by
  constructor
  · exact fun h =>
      ⟨fun n node hn hnode => ⟨h.node n node hn hnode, h.scope n node hn hnode⟩, h.link⟩
  · exact fun h => ⟨fun n node hn hnode => (h.1 n node hn hnode).1,
      fun n node hn hnode => (h.1 n node hn hnode).2, h.2⟩

theorem SameShape.fits (h : SameShape ws ws') : ws'.Fits K links A ↔ ws.Fits K links A := by
  have hnode : ws'.graph.node? = ws.graph.node? := funext h.node?
  have hscope : ∀ n node, ws'.InScope n node A ↔ ws.InScope n node A := fun _ _ => h.inScope
  simp only [fits_iff, hnode, hscope]

/-- The conditions on a node come to one: its types are an instance of the template. -/
theorem instanceOf_template_iff (hn : ws.graph.node? n = some node)
    (hsound : node.Sound ws.registry) : node.InstanceOf (ws.template n node) A ↔
      (node.untyped = none → ∃ scheme, node.scheme? = some scheme ∧ node.InstanceOf scheme A) ∧
        ws.InScope n node A := by
  rw [template]
  by_cases htyped : node.untyped = none
  · obtain ⟨shape, hshape, _, hiff⟩ := exists_shape hn hsound htyped
    rw [if_pos htyped, hshape, Option.getD_some, ← hiff A, forall_prop_of_true htyped]
  · rw [if_neg htyped]
    refine iff_of_true ⟨A, by simp [TyTerm.bind_var]⟩ ⟨fun h => absurd h htyped, ?_⟩
    -- Only pattern variables are bound, and these have signatures.
    intro site t hsite
    obtain ⟨name, hblock, _⟩ := bindingSite?_block hn hsite
    exact absurd (hsound.localVar name hblock).1 htyped

/-- Fresh instances are principal before any link is looked at. -/
theorem Refreshed.generates_fits (hr : Refreshed ws ws₁ nodes) (h : ws.graph.WellFormed)
    (hsound : ∀ n node, ws.graph.node? n = some node → node.Sound ws.registry)
    (hunsigned : ws.Unsigned) :
    Generates ws₁.stored (ws.SocketOf (· ∈ nodes)) (ws.Fits (· ∈ nodes) []) := by
  have hgenerates : Generates ws₁.stored (ws.SocketOf (· ∈ nodes)) fun A =>
      ∀ n node, n ∈ nodes → ws.graph.node? n = some node →
        (node.untyped = none → ∃ scheme, node.scheme? = some scheme ∧ node.InstanceOf scheme A) ∧
          ws.InScope n node A := by
    refine generates_of_nodes h
      (fun s t v m k hm hk hs ht hvs hvt => hr.apart s t v m hm k hk hs ht hvs hvt)
      fun n node hn hnode A => ?_
    rw [← instanceOf_template_iff hnode (hsound n node hnode)]
    exact (hr.copyOf hn hnode (hsound n node hnode) (hunsigned n node hnode)).instanceOf_iff
  refine hgenerates.congr_set fun A => ?_
  rw [fits_iff, and_iff_left (fun l hl => absurd hl List.not_mem_nil)]

/-- Some types fit the nodes and some links, if the equations of these links have a solution. -/
theorem exists_fits_iff {τ : Assignment} (hτ : Generates τ (ws.SocketOf K) (ws.Fits K []))
    (hlinks : ∀ l ∈ links, ws.SocketOf K l.output ∧ ws.SocketOf K l.input) :
    (∃ θ, Solves θ (links.map (Link.equation τ))) ↔ ∃ A, ws.Fits K links A := by
  constructor
  · rintro ⟨θ, hθ⟩
    have hA := (hτ fun s => (τ s).bind θ).mpr ⟨θ, fun _ _ => rfl⟩
    exact ⟨_, hA.node, hA.scope, fun l hl => hθ _ (List.mem_map_of_mem hl)⟩
  · rintro ⟨A, hA⟩
    obtain ⟨θ, hθ⟩ := (hτ A).mp ⟨hA.node, hA.scope, fun l hl => absurd hl List.not_mem_nil⟩
    refine ⟨θ, fun e he => ?_⟩
    obtain ⟨l, hl, rfl⟩ := List.mem_map.mp he
    obtain ⟨hout, hin⟩ := hlinks l hl
    exact (hθ _ hout).symm.trans ((hA.link l hl).trans (hθ _ hin))

/-- Accepted links are met by a most general solution of their equations. -/
theorem generates_fits_of_mostGeneral {τ : Assignment} {z : TyVar → Ty}
    (hτ : Generates τ (ws.SocketOf K) (ws.Fits K []))
    (hlinks : ∀ l ∈ links, ws.SocketOf K l.output ∧ ws.SocketOf K l.input)
    (hz : MostGeneral z (links.map (Link.equation τ))) :
    Generates (fun s => (τ s).bind z) (ws.SocketOf K) (ws.Fits K links) := by
  refine (hτ.solve hz (W := fun a b => ⟨a, b⟩ ∈ links) (fun a b hl => ?_) fun e he => ?_).congr_set
    fun A => ?_
  · exact ⟨(hlinks _ hl).1, (hlinks _ hl).2, List.mem_map.mpr ⟨_, hl, rfl⟩⟩
  · obtain ⟨l, hl, rfl⟩ := List.mem_map.mp he
    exact .inl ⟨l.output, l.input, hl, rfl⟩
  · exact ⟨fun h => ⟨⟨h.node, h.scope, fun l hl => absurd hl List.not_mem_nil⟩,
      fun a b hl => h.link ⟨a, b⟩ hl⟩, fun h => ⟨h.1.node, h.1.scope, fun l hl => h.2 _ _ hl⟩⟩

/-! ## What a rebuild leaves behind -/

/-- Both ends of a link that failed are invalid with its error, and the link has no other effect. -/
structure Isolated (ws ws' : Workspace) (nodes : List NodeId) (links accepted : List Link)
    (failures : List (Link × TypeError)) : Prop where
  /-- Every link of the nodes is looked at once. -/
  all : links.Nodup ∧ ∀ l, l ∈ links ↔
    ws.graph.Wired l.output l.input ∧ ws.SocketOf (· ∈ nodes) l.output
  /-- A link fails if no types fit it together with the links accepted before it. -/
  sifted : Sifted (fun ls => ∃ A, ws.Fits (· ∈ nodes) ls A) [] links accepted
    (failures.map Prod.fst)
  failed : ∀ f ∈ failures, f.2.IsClash ∧ ∀ s, f.1.output = s ∨ f.1.input = s →
    (ws'.graph.socket? s).map Socket.state = some (.invalid f.2)
  other : ∀ s, ws.SocketOf (· ∈ nodes) s →
    (∀ f ∈ failures, ¬ (f.1.output = s ∨ f.1.input = s)) →
    ∀ e, (ws'.graph.socket? s).map Socket.state = some (.invalid e) ↔ ws.untyped? s = some e
  agreed : ∀ l ∈ accepted, ws'.stored l.output = ws'.stored l.input
  principal : Generates ws'.stored (ws.SocketOf (· ∈ nodes)) (ws.Fits (· ∈ nodes) accepted)

theorem Isolated.of_sameShape (h : SameShape ws₀ ws)
    (hi : ws.Isolated ws' nodes links accepted failures) :
    ws₀.Isolated ws' nodes links accepted failures := by
  have hfits : ∀ links A, ws.Fits (· ∈ nodes) links A ↔ ws₀.Fits (· ∈ nodes) links A :=
    fun _ _ => h.fits
  have hsocket : ws.SocketOf (· ∈ nodes) = ws₀.SocketOf (· ∈ nodes) := socketOf_congr h.outline
  have huntyped : ws.untyped? = ws₀.untyped? := by
    funext s
    rw [untyped?, untyped?, h.owner?, funext h.node?]
  obtain ⟨hall, hsifted, hfailed, hother, hagreed, hprincipal⟩ := hi
  rw [hsocket] at hall hother hprincipal
  rw [huntyped] at hother
  refine ⟨⟨hall.1, fun l => ?_⟩, hsifted.congr fun ls _ => ?_, hfailed, hother, hagreed,
    hprincipal.congr_set fun A => (hfits accepted A).symm⟩
  · rw [hall.2, Graph.wired_congr h.outline]
  · exact exists_congr fun A => hfits ls A

/-- The error at an end of a link that failed is the error of this link, if no other link has this
end. -/
theorem failureAt?_eq_some {f : Link × TypeError} (hnodup : (failures.map Prod.fst).Nodup)
    (hunique : ∀ g ∈ failures, (g.1.output = s ∨ g.1.input = s) → g.1 = f.1) (hf : f ∈ failures)
    (hs : f.1.output = s ∨ f.1.input = s) : failureAt? failures s = some f.2 := by
  rw [failureAt?, Option.map_eq_some_iff]
  cases hfound : failures.find? fun g => g.1.output = s || g.1.input = s with
  | none =>
    rw [List.find?_eq_none] at hfound
    exact absurd (by simpa using hs) (hfound f hf)
  | some g =>
    have hg := List.mem_of_find?_eq_some hfound
    have hends : g.1.output = s ∨ g.1.input = s := by simpa using List.find?_some hfound
    refine ⟨g, rfl, ?_⟩
    rw [List.inj_on_of_nodup_map hnodup hg hf (hunique g hg hends)]

theorem settledState_eq_invalid_iff {e : TypeError} :
    ws.settledState s = .invalid e ↔ ws.untyped? s = some e := by
  rw [settledState]
  cases ws.untyped? s with
  | some e' => simp
  | none => cases ws.graph.peer? s <;> simp

theorem ComponentSifted.isolated {order : List NodeId} {z : TyVar → Ty}
    (hs : ComponentSifted ws ws₁ ws' seeds (ws.graph.linksInto order) z accepted failures)
    (h : ws.Sound) (hunsigned : ws.Unsigned)
    (horder : ws.graph.topologicalOrder (ws.graph.component seeds).nodes = .ok order)
    (hsame : ∀ s, ws.SocketOf (· ∈ (ws.graph.component seeds).nodes) s →
      ws₂.graph.socket? s = ws'.graph.socket? s) :
    ws.Isolated ws₂ (ws.graph.component seeds).nodes (ws.graph.linksInto order) accepted
      failures := by
  have hall : ∀ l, l ∈ ws.graph.linksInto order ↔ ws.graph.Wired l.output l.input ∧
      ws.SocketOf (· ∈ (ws.graph.component seeds).nodes) l.output :=
    fun l => Graph.mem_linksInto_order h.graph horder
  have hnodup := Graph.linksInto_nodup h.graph (Graph.topologicalOrder_nodup horder)
  have hends : ∀ l ∈ ws.graph.linksInto order,
      ws.SocketOf (· ∈ (ws.graph.component seeds).nodes) l.output ∧
        ws.SocketOf (· ∈ (ws.graph.component seeds).nodes) l.input := by
    intro l hl
    obtain ⟨hw, hout⟩ := (hall l).mp hl
    obtain ⟨m, hm, hmem⟩ := hout
    obtain ⟨k, _, hk⟩ := h.graph.wired_input _ _ hw
    have hk := Graph.owner?_eq_some_iff.mpr ⟨_, hk⟩
    refine ⟨⟨m, hm, hmem⟩, k, hk, Graph.component_closed h.graph hmem ?_⟩
    exact .tail .refl ⟨_, _, hm, hk, .inl hw⟩
  have hmem : ∀ l, l ∈ ws.graph.linksInto order ↔ l ∈ accepted ∨ l ∈ failures.map Prod.fst :=
    fun l => hs.sifted.mem_iff
  have hfresh := hs.refreshed.generates_fits h.graph h.nodes hunsigned
  have hsocket : ∀ s, ws.SocketOf (· ∈ (ws.graph.component seeds).nodes) s →
      (ws₂.graph.socket? s).map Socket.state = some (ws.solvedState failures s) ∧
        ws₂.stored s = (ws₁.stored s).bind z := by
    intro s hsocket
    obtain ⟨socket, _, hnew, hstored⟩ := finished_socket h.graph hs.refreshed hs.finished
      ((mem_sockets_of_socketOf h.graph).mpr hsocket)
    rw [← hsame s hsocket] at hnew
    exact ⟨by rw [hnew]; rfl, (stored_eq hnew).trans hstored⟩
  have hprincipal : Generates ws₂.stored _ _ :=
    (generates_fits_of_mostGeneral hfresh (fun l hl => hends l ((hmem l).mpr (.inl hl)))
      hs.principal).congr_family fun s hs => (hsocket s hs).2
  refine ⟨⟨hnodup, hall⟩, hs.sifted.congr fun ls hls => exists_fits_iff hfresh fun l hl => ?_,
    fun f hf => ⟨hs.reason f hf, fun s hends' => ?_⟩, fun s hin hnone e => ?_,
    hprincipal.self.link, hprincipal⟩
  · exact hends l ((hls l hl).resolve_left List.not_mem_nil)
  · have hwired : ∀ g ∈ failures, g.1 ∈ ws.graph.linksInto order := fun g hg =>
      (hmem g.1).mpr (.inr (List.mem_map_of_mem hg))
    have hin : ws.SocketOf (· ∈ (ws.graph.component seeds).nodes) s := by
      rcases hends' with rfl | rfl
      · exact (hends f.1 (hwired f hf)).1
      · exact (hends f.1 (hwired f hf)).2
    rw [(hsocket s hin).1, solvedState, failureAt?_eq_some (hs.sifted.failed_sublist.nodup hnodup)
      (fun g hg hg' => ?_) hf hends']
    exact Graph.link_eq_of_end h.graph.links ((hall g.1).mp (hwired g hg)).1
      ((hall f.1).mp (hwired f hf)).1 hg' hends'
  · rw [(hsocket s hin).1, solvedState_settled ws fun f hf => not_or.mp (hnone f hf),
      Option.some_inj, settledState_eq_invalid_iff]

/-- Rebuilding everything isolates the links that fail, in every component without a cycle.  The
links are looked at in an order in which every node comes after those that feed it, and the errors
at their ends are the errors that are listed. -/
theorem resolveAll_isolated (h : ws.Visited) {first : NodeId} {c : Component}
    (hc : (first, c) ∈ ws.graph.components) (hacyclic : ∀ n ∈ c.nodes, ¬ ws.graph.Cyclic n) :
    ∃ order accepted failures, ws.graph.topologicalOrder c.nodes = .ok order ∧
      ws.Isolated ws.resolveAll.2 c.nodes (ws.graph.linksInto order) accepted failures ∧
      ws.untypedErrors c.nodes ++ failures.map Prod.snd <:+: ws.resolveAll.1 := by
  have hgraph := h.sound.graph
  obtain ⟨⟨node, hnode⟩, rfl⟩ := Graph.components_eq hc
  obtain ⟨order, horder⟩ := (Graph.topologicalOrder_component_iff hgraph _).mpr hacyclic
  obtain ⟨ws₀, seeds, hsound, hshape, hnodes, herrors, hsame⟩ := resolveAll_last h.sound hnode
  have hlist : (ws₀.graph.component seeds).nodes =
      (ws.graph.component (ws.graph.socketAt? first .output).toList).nodes := by
    rw [← Graph.component_congr hshape.outline]
    refine Graph.component_nodes_ext fun m => (hnodes m).trans ?_
    rw [Graph.component_congr hshape.outline, Graph.mem_component_output hgraph hnode,
      hshape.connected]
  rw [← hlist, ← Graph.topologicalOrder_congr hshape.outline] at horder ⊢
  obtain ⟨ws₁, z, accepted, failures, hs, hreported⟩ := recompute_sifted hsound.graph horder
  have hunsigned : ws₀.Unsigned := fun m node hm =>
    h.unsigned m node ((hshape.node? m).symm.trans hm)
  have hrebuilt := (recompute_rebuilt hsound.graph hsound.nodes seeds).sameShape
  refine ⟨order, accepted, failures, horder, ?_, ?_⟩
  · rw [← Graph.linksInto_congr hshape.outline]
    refine (hs.isolated hsound hunsigned horder fun s hin => ?_).of_sameShape hshape
    obtain ⟨m, hm, hmem⟩ := hin
    exact (hsame m (hrebuilt.connected.mpr ((hnodes m).mp hmem))).graph.socket s
      ((hrebuilt.owner? s).trans hm)
  · rw [← hshape.untypedErrors, ← hreported]
    exact herrors

/-- A list of a number, a truth value and the result of a function that does not exist. -/
def mixedItems : List Action :=
  [.addNode (.list 3), .addNode (.literal (.lit "Number" []) "1"),
    .addNode (.literal (.lit "Bool" []) "true"), .addNode (.function "missing"),
    .attach 4 1, .attach 5 2, .attach 6 3]

/-- The number decides the type of the items, so the link from the truth value fails. -/
theorem resolveAll_isolated_mixedItems :
    ∃ (ws : Workspace) (c : Component), empty.runAll mixedItems = some ws ∧ ws.Visited ∧
      (0, c) ∈ ws.graph.components ∧ (∀ n ∈ c.nodes, ¬ ws.graph.Cyclic n) ∧
      ws.resolveAll.2.stored 3 = .lit "Number" [] ∧ ws.resolveAll.2.stored 5 = .lit "Bool" [] ∧
      ∃ order accepted failures, ws.graph.topologicalOrder c.nodes = .ok order ∧
        ws.Isolated ws.resolveAll.2 c.nodes (ws.graph.linksInto order) accepted failures ∧
        ws.untypedErrors c.nodes ++ failures.map Prod.snd <:+: ws.resolveAll.1 := by
  have hchecks : ((empty.runAll mixedItems).any fun ws =>
      ws.graph.components.any (fun e => e.1 = 0 && (ws.graph.topologicalOrder e.2.nodes).isOk) &&
        ws.resolveAll.2.stored 3 = .lit "Number" [] &&
        ws.resolveAll.2.stored 5 = .lit "Bool" []) = true := by
    cbv
  obtain ⟨ws, hrun, hchecks⟩ := (Option.any_eq_true _ _).mp hchecks
  simp only [Bool.and_eq_true, List.any_eq_true, decide_eq_true_eq] at hchecks
  obtain ⟨⟨⟨⟨first, c⟩, hc, hfirst, hok⟩, hitem⟩, hvalue⟩ := hchecks
  obtain rfl : first = 0 := hfirst
  have hvisited := (Reachable.empty.runAll hrun).visited
  have hacyclic : ∀ n ∈ c.nodes, ¬ ws.graph.Cyclic n := by
    obtain ⟨_, rfl⟩ := Graph.components_eq hc
    refine (Graph.topologicalOrder_component_iff hvisited.sound.graph _).mp ?_
    cases horder : ws.graph.topologicalOrder _ with
    | ok order => exact ⟨order, rfl⟩
    | error e =>
      rw [horder] at hok
      cases hok
  exact ⟨ws, c, hrun, hvisited, hc, hacyclic, hitem, hvalue,
    resolveAll_isolated hvisited hc hacyclic⟩

end Workspace
end BlockGraph
