import BlockGraph.Proofs.Graph.Topology
import Mathlib.Logic.Relation

/-!
# What hangs together

Two nodes hang together if a chain of links leads from one to the other, whatever
the directions of the links.  The search from given sockets collects exactly the
nodes that hang together with one of them, and their sockets.

`SameAt` says that a node is the same in two graphs, with its sockets and what
they are linked to.  If all nodes that hang together with a node are the same in
both graphs, then they are the nodes that hang together with it in both.
-/

namespace BlockGraph

namespace Search

variable {next : Nat → List Nat} {vertices todo seen : List Nat} {x y : Nat}

theorem reach_subset {P : Nat → Prop} (hseen : ∀ x ∈ seen, P x)
    (htodo : ∀ x ∈ todo, x ∈ vertices → P x)
    (hnext : ∀ x, P x → ∀ y ∈ next x, y ∈ vertices → P y) :
    ∀ x ∈ reach next vertices todo seen, P x := by
  induction todo, seen using reach.induct next vertices with
  | case1 seen =>
    rw [reach]
    exact hseen
  | case2 x todo seen h ih =>
    rw [reach, dif_pos h]
    have hx := htodo x List.mem_cons_self h.1
    refine ih (fun y hy => ?_) fun y hy hv => ?_
    · rcases List.mem_cons.mp hy with rfl | hy
      · exact hx
      · exact hseen y hy
    · rcases List.mem_append.mp hy with hy | hy
      · exact hnext x hx y hy hv
      · exact htodo y (List.mem_cons_of_mem x hy) hv
  | case3 x todo seen h ih =>
    rw [reach, dif_neg h]
    exact ih hseen fun y hy => htodo y (List.mem_cons_of_mem x hy)

/-- Nothing is left out: the invariant is that what a seen vertex leads to is seen or still to be
looked at. -/
theorem reach_closed
    (hseen : ∀ x ∈ seen, ∀ y ∈ next x, y ∈ vertices → y ∈ seen ∨ y ∈ todo) :
    (∀ x ∈ seen, x ∈ reach next vertices todo seen) ∧
      (∀ x ∈ todo, x ∈ vertices → x ∈ reach next vertices todo seen) ∧
      ∀ x ∈ reach next vertices todo seen, ∀ y ∈ next x, y ∈ vertices →
        y ∈ reach next vertices todo seen := by
  induction todo, seen using reach.induct next vertices with
  | case1 seen =>
    rw [reach]
    refine ⟨fun x hx => hx, fun x hx => absurd hx List.not_mem_nil, fun x hx y hy hv => ?_⟩
    exact (hseen x hx y hy hv).resolve_right List.not_mem_nil
  | case2 x todo seen h ih =>
    rw [reach, dif_pos h]
    obtain ⟨hsub, htodo, hclosed⟩ := ih (by
      intro z hz y hy hv
      rcases List.mem_cons.mp hz with rfl | hz
      · exact .inr (List.mem_append_left _ hy)
      · rcases hseen z hz y hy hv with hs | ht
        · exact .inl (List.mem_cons_of_mem x hs)
        · rcases List.mem_cons.mp ht with rfl | ht
          · exact .inl List.mem_cons_self
          · exact .inr (List.mem_append_right _ ht))
    refine ⟨fun z hz => hsub z (List.mem_cons_of_mem x hz), fun z hz hv => ?_, hclosed⟩
    rcases List.mem_cons.mp hz with rfl | hz
    · exact hsub z List.mem_cons_self
    · exact htodo z (List.mem_append_right _ hz) hv
  | case3 x todo seen h ih =>
    rw [reach, dif_neg h]
    have hx : x ∈ vertices → x ∈ seen := fun hv =>
      Classical.byContradiction fun hn => h ⟨hv, hn⟩
    obtain ⟨hsub, htodo, hclosed⟩ := ih (by
      intro z hz y hy hv
      rcases hseen z hz y hy hv with hs | ht
      · exact .inl hs
      · rcases List.mem_cons.mp ht with rfl | ht
        · exact .inl (hx hv)
        · exact .inr ht)
    refine ⟨hsub, fun z hz hv => ?_, hclosed⟩
    rcases List.mem_cons.mp hz with rfl | hz
    · exact hsub z (hx hv)
    · exact htodo z hz hv

theorem mem_reach_iff {starts : List Nat} :
    y ∈ reach next vertices starts [] ↔
      ∃ x ∈ starts, x ∈ vertices ∧
        Relation.ReflTransGen (fun a b => b ∈ next a ∧ b ∈ vertices) x y := by
  constructor
  · refine reach_subset (P := fun y => ∃ x ∈ starts, x ∈ vertices ∧
      Relation.ReflTransGen (fun a b => b ∈ next a ∧ b ∈ vertices) x y)
      (fun x hx => absurd hx List.not_mem_nil) (fun x hx hv => ⟨x, hx, hv, .refl⟩) ?_ y
    rintro z ⟨x, hx, hv, hpath⟩ w hw hwv
    exact ⟨x, hx, hv, hpath.tail ⟨hw, hwv⟩⟩
  · rintro ⟨x, hx, hv, hpath⟩
    obtain ⟨_, hstarts, hclosed⟩ :=
      @reach_closed next vertices starts [] fun x hx => absurd hx List.not_mem_nil
    induction hpath with
    | refl => exact hstarts x hx hv
    | tail _ hstep ih => exact hclosed _ ih _ hstep.1 hstep.2

end Search

namespace Graph

variable {g g' : Graph} {s t : SocketId} {a b m n : NodeId} {node : Node} {seeds : List SocketId}

/-! ## Components -/

/-- Two nodes have sockets with a link between them. -/
def Linked (g : Graph) (a b : NodeId) : Prop :=
  ∃ s t, g.owner? s = some a ∧ g.owner? t = some b ∧ (g.Wired s t ∨ g.Wired t s)

/-- A chain of links leads from one node to the other. -/
def Connected (g : Graph) : NodeId → NodeId → Prop :=
  Relation.ReflTransGen g.Linked

theorem Linked.symm (h : g.Linked a b) : g.Linked b a := by
  obtain ⟨s, t, hs, ht, hw⟩ := h
  exact ⟨t, s, ht, hs, hw.symm⟩

theorem Connected.refl (g : Graph) (n : NodeId) : g.Connected n n :=
  Relation.ReflTransGen.refl

theorem Connected.symm (h : g.Connected a b) : g.Connected b a := by
  induction h with
  | refl => exact .refl g a
  | tail _ hl ih => exact Relation.ReflTransGen.head hl.symm ih

theorem Connected.trans {c : NodeId} (h : g.Connected a b) (h' : g.Connected b c) :
    g.Connected a c :=
  Relation.ReflTransGen.trans h h'

theorem connected_congr (h : g'.outline = g.outline) : g'.Connected = g.Connected := by
  have hlinked : g'.Linked = g.Linked := by
    funext a b
    simp only [Linked, owner?_congr h, wired_congr h]
  rw [Connected, hlinked, Connected]

theorem linked_iff_peer (h : g.WellFormed) :
    g.Linked a b ↔ ∃ s t, g.owner? s = some a ∧ g.peer? s = some t ∧ g.owner? t = some b := by
  refine exists_congr fun s => exists_congr fun t => ?_
  rw [peer?_eq_some_iff h.links, and_comm (a := g.Wired s t ∨ g.Wired t s)]

def unlinked (g : Graph) : Graph :=
  { g with links := {} }

theorem WellFormed.unlinked (h : g.WellFormed) : g.unlinked.WellFormed :=
  ⟨h.nodes, h.sockets, empty_wellFormed.links, h.place, fun _ _ hw => absurd hw List.not_mem_nil,
    fun _ _ hw => absurd hw List.not_mem_nil⟩

theorem Linked.node? (h : g.unlinked.WellFormed) (hl : g.Linked a b) :
    ∃ node, g.node? b = some node := by
  obtain ⟨s, t, _, ht, _⟩ := hl
  obtain ⟨node, hn, _⟩ := owner?_node h ht
  exact ⟨node, hn⟩

theorem Connected.node? (h : g.unlinked.WellFormed) (hc : g.Connected a b)
    (ha : g.node? a = some node) : ∃ node', g.node? b = some node' := by
  cases hc with
  | refl => exact ⟨node, ha⟩
  | tail _ hl => exact hl.node? h

theorem connected_of_isolated (hn : ¬ ∃ b, g.Linked n b) (hc : g.Connected n m) : m = n := by
  rcases Relation.ReflTransGen.cases_head hc with rfl | ⟨b, hb, _⟩
  · rfl
  · exact absurd ⟨b, hb⟩ hn

theorem mem_linkedNodes (h : g.unlinked.WellFormed) : b ∈ g.linkedNodes a ↔ g.Linked a b := by
  rw [linkedNodes, List.mem_filterMap]
  constructor
  · rintro ⟨t, ht, hb⟩
    obtain ⟨s, hs, hst⟩ := List.mem_flatMap.mp ht
    cases ha : g.node? a with
    | none =>
      rw [ha] at hs
      exact absurd hs List.not_mem_nil
    | some node =>
      rw [ha] at hs
      exact ⟨s, t, (mem_sockets_iff h ha).mp hs, hb, mem_neighbours.mp hst⟩
  · rintro ⟨s, t, hs, ht, hw⟩
    obtain ⟨node, ha, hmem⟩ := owner?_node h hs
    have hlisted : s ∈ (g.node? a).elim [] Node.sockets := by
      rw [show g.node? a = some node from ha]
      exact hmem
    exact ⟨t, List.mem_flatMap.mpr ⟨s, hlisted, mem_neighbours.mpr hw⟩, ht⟩

private theorem mem_reached (h : g.unlinked.WellFormed) :
    n ∈ Search.reach g.linkedNodes g.nodeIds (seeds.filterMap g.owner?) [] ↔
      ∃ s ∈ seeds, ∃ m, g.owner? s = some m ∧ g.Connected m n := by
  have hstep : (fun a b => b ∈ g.linkedNodes a ∧ b ∈ g.nodeIds) = g.Linked := by
    funext a b
    rw [mem_linkedNodes h, mem_nodeIds, eq_iff_iff, and_iff_left_iff_imp]
    exact Linked.node? h
  rw [Search.mem_reach_iff, hstep]
  constructor
  · rintro ⟨m, hm, _, hpath⟩
    obtain ⟨s, hs, hsm⟩ := List.mem_filterMap.mp hm
    exact ⟨s, hs, m, hsm, hpath⟩
  · rintro ⟨s, hs, m, hsm, hpath⟩
    obtain ⟨node, hnode, _⟩ := owner?_node h hsm
    exact ⟨m, List.mem_filterMap.mpr ⟨s, hs, hsm⟩, mem_nodeIds.mpr ⟨node, hnode⟩, hpath⟩

/-- The places of the sockets are all that the search relies on. -/
theorem mem_component_nodes_of_places (h : g.unlinked.WellFormed) :
    n ∈ (g.component seeds).nodes ↔ ∃ s ∈ seeds, ∃ m, g.owner? s = some m ∧ g.Connected m n := by
  rw [component, List.mem_filter, decide_eq_true_iff, mem_reached h, and_iff_right_iff_imp]
  rintro ⟨s, _, m, hsm, hpath⟩
  obtain ⟨node, hnode, _⟩ := owner?_node h hsm
  exact mem_nodeIds.mpr (hpath.node? h hnode)

theorem mem_component_sockets_of_places (h : g.unlinked.WellFormed) :
    s ∈ (g.component seeds).sockets ↔ ∃ n, g.owner? s = some n ∧ n ∈ (g.component seeds).nodes := by
  have hsockets : g.sockets.WellFormed := h.sockets
  rw [component, List.mem_map]
  constructor
  · rintro ⟨⟨s, socket⟩, hmem, rfl⟩
    rw [List.mem_filter, decide_eq_true_iff, Slots.mem_entries_iff hsockets] at hmem
    have howner : g.owner? s = some socket.node := Option.map_eq_some_iff.mpr ⟨socket, hmem.1, rfl⟩
    obtain ⟨node, hnode, _⟩ := owner?_node h howner
    exact ⟨socket.node, howner, List.mem_filter.mpr
      ⟨mem_nodeIds.mpr ⟨node, hnode⟩, decide_eq_true hmem.2⟩⟩
  · rintro ⟨n, howner, hn⟩
    obtain ⟨socket, hs, rfl⟩ := Option.map_eq_some_iff.mp howner
    rw [List.mem_filter, decide_eq_true_iff] at hn
    refine ⟨(s, socket), List.mem_filter.mpr ⟨?_, decide_eq_true hn.2⟩, rfl⟩
    exact (Slots.mem_entries_iff hsockets).mpr hs

theorem mem_component_nodes (h : g.WellFormed) :
    n ∈ (g.component seeds).nodes ↔ ∃ s ∈ seeds, ∃ m, g.owner? s = some m ∧ g.Connected m n :=
  mem_component_nodes_of_places h.unlinked

theorem mem_component_sockets (h : g.WellFormed) :
    s ∈ (g.component seeds).sockets ↔ ∃ n, g.owner? s = some n ∧ n ∈ (g.component seeds).nodes :=
  mem_component_sockets_of_places h.unlinked

theorem component_closed (h : g.WellFormed) (hm : m ∈ (g.component seeds).nodes)
    (hc : g.Connected m n) : n ∈ (g.component seeds).nodes := by
  obtain ⟨s, hs, k, hsk, hkm⟩ := (mem_component_nodes h).mp hm
  exact (mem_component_nodes h).mpr ⟨s, hs, k, hsk, hkm.trans hc⟩

theorem component_live (hm : m ∈ (g.component seeds).nodes) : ∃ node, g.node? m = some node :=
  mem_nodeIds.mp (List.mem_filter.mp hm).1

theorem component_nodes_nodup (h : g.WellFormed) (seeds : List SocketId) :
    (g.component seeds).nodes.Nodup :=
  h.nodes.used_nodup.filter _

theorem component_nodes_ext {seeds' : List SocketId}
    (hmem : ∀ n, n ∈ (g.component seeds).nodes ↔ n ∈ (g.component seeds').nodes) :
    (g.component seeds).nodes = (g.component seeds').nodes := by
  refine List.filter_congr fun n hn => decide_eq_decide.mpr ?_
  have hn' := hmem n
  rwa [component, component, List.mem_filter, List.mem_filter, decide_eq_true_iff,
    decide_eq_true_iff, and_iff_right hn, and_iff_right hn] at hn'

theorem component_sockets_nodup (h : g.WellFormed) (seeds : List SocketId) :
    (g.component seeds).sockets.Nodup :=
  h.sockets.used_nodup.sublist (List.filter_sublist.map Prod.fst)

theorem mem_component_singleton (h : g.WellFormed) (hs : g.owner? s = some m) :
    n ∈ (g.component [s]).nodes ↔ g.Connected m n := by
  rw [mem_component_nodes h]
  constructor
  · rintro ⟨t, ht, m', hm', hc⟩
    rw [List.mem_singleton.mp ht, hs] at hm'
    cases hm'
    exact hc
  · exact fun hc => ⟨s, List.mem_singleton_self s, m, hs, hc⟩

theorem owner?_output (h : g.WellFormed) (hn : g.node? n = some node) :
    g.owner? node.output = some n :=
  owner?_eq_some_iff.mpr ⟨.output, (At.output_eq h hn).mpr rfl⟩

theorem mem_component_output (h : g.WellFormed) (hm : g.node? m = some node) :
    n ∈ (g.component (g.socketAt? m .output).toList).nodes ↔ g.Connected m n := by
  have hseed : g.socketAt? m .output = some node.output := by simp [socketAt?, hm]
  rw [hseed]
  exact mem_component_singleton h (owner?_output h hm)

theorem connected_of_mem_output (h : g.WellFormed)
    (hm : m ∈ (g.component (g.socketAt? k .output).toList).nodes)
    (hn : n ∈ (g.component (g.socketAt? k .output).toList).nodes) : g.Connected m n := by
  cases hk : g.node? k with
  | none =>
    have hseed : g.socketAt? k .output = none := by simp [socketAt?, hk]
    rw [hseed, mem_component_nodes h] at hm
    obtain ⟨s, hs, _⟩ := hm
    exact absurd hs List.not_mem_nil
  | some node =>
    rw [mem_component_output h hk] at hm hn
    exact hm.symm.trans hn

theorem mem_components (h : g.WellFormed) (hn : g.node? n = some node) :
    ∃ m node', (m ∈ g.components.map Prod.fst) ∧ g.node? m = some node' ∧ g.Connected m n := by
  have hfrom : ∀ (list covered : List NodeId), (∀ m ∈ list, ∃ node, g.node? m = some node) →
      n ∈ list → n ∈ covered ∨ ∃ m node', m ∈ (g.componentsFrom covered list).map Prod.fst ∧
        g.node? m = some node' ∧ g.Connected m n := by
    intro list
    induction list with
    | nil => exact fun _ _ hmem => absurd hmem List.not_mem_nil
    | cons x rest ih =>
      intro covered hlive hmem
      have hrest := fun m hm => hlive m (List.mem_cons_of_mem x hm)
      rw [componentsFrom]
      split
      · next hx =>
        rcases List.mem_cons.mp hmem with rfl | hmem
        · exact .inl hx
        · exact ih covered hrest hmem
      · obtain ⟨node', hnode'⟩ := hlive x List.mem_cons_self
        rcases List.mem_cons.mp hmem with rfl | hmem
        · exact .inr ⟨n, node', List.mem_cons_self, hnode', .refl g n⟩
        · rcases ih (covered ++ (g.component (g.socketAt? x .output).toList).nodes) hrest hmem
            with hcov | ⟨m, node'', hm, hnode'', hc⟩
          · rcases List.mem_append.mp hcov with hcov | hcov
            · exact .inl hcov
            · exact .inr ⟨x, node', List.mem_cons_self, hnode',
                (mem_component_output h hnode').mp hcov⟩
          · exact .inr ⟨m, node'', List.mem_cons_of_mem _ hm, hnode'', hc⟩
  exact (hfrom g.nodeIds [] (fun m hm => mem_nodeIds.mp hm)
    (mem_nodeIds.mpr ⟨node, hn⟩)).resolve_left
    List.not_mem_nil

theorem componentsFrom_eq {covered list : List NodeId} :
    ∀ e ∈ g.componentsFrom covered list,
      e.1 ∈ list ∧ e.2 = g.component (g.socketAt? e.1 .output).toList := by
  induction list generalizing covered with
  | nil => exact fun e he => absurd he List.not_mem_nil
  | cons x rest ih =>
    intro e he
    rw [componentsFrom] at he
    split at he
    · exact ⟨List.mem_cons_of_mem x (ih e he).1, (ih e he).2⟩
    · rcases List.mem_cons.mp he with rfl | he
      · exact ⟨List.mem_cons_self, rfl⟩
      · exact ⟨List.mem_cons_of_mem x (ih e he).1, (ih e he).2⟩

theorem componentsFrom_nodup (h : g.WellFormed) (list covered : List NodeId)
    (hlive : ∀ m ∈ list, ∃ node, g.node? m = some node)
    (hclosed : ∀ a ∈ covered, ∀ b, g.Connected a b → b ∈ covered) :
    ((g.componentsFrom covered list).flatMap fun e => e.2.nodes).Nodup ∧
      ∀ n ∈ (g.componentsFrom covered list).flatMap fun e => e.2.nodes, n ∉ covered := by
  induction list generalizing covered with
  | nil => exact ⟨List.nodup_nil, fun n hn => absurd hn List.not_mem_nil⟩
  | cons x rest ih =>
    have hrest := fun m hm => hlive m (List.mem_cons_of_mem x hm)
    rw [componentsFrom]
    split
    · exact ih covered hrest hclosed
    next hx =>
    obtain ⟨node, hnode⟩ := hlive x List.mem_cons_self
    have hmem := fun n => mem_component_output (n := n) h hnode
    obtain ⟨hnodup, hnew⟩ :=
      ih (covered ++ (g.component (g.socketAt? x .output).toList).nodes) hrest
      fun a ha b hab => by
        rcases List.mem_append.mp ha with ha | ha
        · exact List.mem_append_left _ (hclosed a ha b hab)
        · exact List.mem_append_right _ (component_closed h ha hab)
    rw [List.flatMap_cons]
    refine ⟨List.nodup_append'.mpr ⟨component_nodes_nodup h _, hnodup, ?_⟩, fun n hn => ?_⟩
    · exact fun n hn hn' => hnew n hn' (List.mem_append_right _ hn)
    · rcases List.mem_append.mp hn with hn | hn
      · exact fun hcov => hx (hclosed n hcov x ((hmem n).mp hn).symm)
      · exact fun hcov => hnew n hn (List.mem_append_left _ hcov)

theorem components_eq {c : Component} (hc : (n, c) ∈ g.components) :
    (∃ node, g.node? n = some node) ∧ c = g.component (g.socketAt? n .output).toList :=
  ⟨mem_nodeIds.mp (componentsFrom_eq (n, c) hc).1, (componentsFrom_eq (n, c) hc).2⟩

theorem components_perm (h : g.WellFormed) :
    (g.components.flatMap fun e => e.2.nodes).Perm g.nodeIds := by
  have hnodup := (componentsFrom_nodup h g.nodeIds [] (fun m hm => mem_nodeIds.mp hm)
    fun a ha => absurd ha List.not_mem_nil).1
  refine (List.perm_ext_iff_of_nodup hnodup h.nodes.used_nodup).mpr fun n => ?_
  rw [List.mem_flatMap]
  constructor
  · rintro ⟨⟨m, c⟩, hc, hn⟩
    obtain ⟨_, rfl⟩ := components_eq hc
    exact mem_nodeIds.mpr (component_live hn)
  · intro hn
    obtain ⟨node, hnode⟩ := mem_nodeIds.mp hn
    obtain ⟨m, node', hm, hnode', hconn⟩ := mem_components h hnode
    obtain ⟨⟨m, c⟩, hc, rfl⟩ := List.mem_map.mp hm
    obtain ⟨_, rfl⟩ := components_eq hc
    exact ⟨_, hc, (mem_component_output h hnode').mpr hconn⟩
/-! ## Nodes that are the same in two graphs -/

/-- A node is the same in both graphs, with its sockets and what they are linked to. -/
structure SameAt (g g' : Graph) (n : NodeId) : Prop where
  node : g'.node? n = g.node? n
  socket : ∀ s, g.owner? s = some n → g'.socket? s = g.socket? s
  peer : ∀ s, g.owner? s = some n → g'.peer? s = g.peer? s

theorem SameAt.refl (g : Graph) (n : NodeId) : SameAt g g n :=
  ⟨rfl, fun _ _ => rfl, fun _ _ => rfl⟩

theorem SameAt.owner (h : g.WellFormed) (h' : g'.WellFormed) (hsame : SameAt g g' n) :
    g'.owner? s = some n ↔ g.owner? s = some n := by
  constructor
  · intro hs
    obtain ⟨node, hn, hmem⟩ := owner?_node h' hs
    rw [hsame.node] at hn
    exact (mem_sockets_iff h hn).mp hmem
  · intro hs
    rw [owner?, hsame.socket s hs]
    exact hs

theorem SameAt.symm (h : g.WellFormed) (h' : g'.WellFormed) (hsame : SameAt g g' n) :
    SameAt g' g n :=
  ⟨hsame.node.symm, fun s hs => (hsame.socket s ((hsame.owner h h').mp hs)).symm,
    fun s hs => (hsame.peer s ((hsame.owner h h').mp hs)).symm⟩

theorem SameAt.trans {g'' : Graph} (h : g.WellFormed) (h' : g'.WellFormed)
    (hsame : SameAt g g' n) (hsame' : SameAt g' g'' n) : SameAt g g'' n :=
  ⟨hsame'.node.trans hsame.node,
    fun s hs => (hsame'.socket s ((hsame.owner h h').mpr hs)).trans (hsame.socket s hs),
    fun s hs => (hsame'.peer s ((hsame.owner h h').mpr hs)).trans (hsame.peer s hs)⟩

theorem SameAt.linked (h : g.WellFormed) (h' : g'.WellFormed) (ha : SameAt g g' a)
    (hb : SameAt g g' b) (hl : g.Linked a b) : g'.Linked a b := by
  obtain ⟨s, t, hs, hp, ht⟩ := (linked_iff_peer h).mp hl
  exact (linked_iff_peer h').mpr ⟨s, t, (ha.owner h h').mpr hs, (ha.peer s hs).trans hp,
    (hb.owner h h').mpr ht⟩

/-- A link leads the same way in both graphs, since its ends have the same places. -/
theorem SameAt.wired (h : g.WellFormed) (h' : g'.WellFormed) (hsame : SameAt g g' n)
    (hs : g.owner? s = some n) (hw : g'.Wired s t) : g.Wired s t := by
  have hp : g'.peer? s = some t := (peer?_eq_some_iff h'.links).mpr (.inl hw)
  rw [hsame.peer s hs] at hp
  refine ((peer?_eq_some_iff h.links).mp hp).resolve_right fun hw' => ?_
  obtain ⟨k, hk⟩ := h'.wired_output s t hw
  rw [At, hsame.socket s hs] at hk
  exact not_wired_output h hk hw'

theorem connected_of_sameAt (h : g.WellFormed) (h' : g'.WellFormed)
    (hsame : ∀ m, g.Connected n m → SameAt g g' m) (hc : g.Connected n m) :
    g'.Connected n m := by
  induction hc with
  | refl => exact .refl g' n
  | tail hc hl ih =>
    exact Relation.ReflTransGen.tail ih ((hsame _ hc).linked h h' (hsame _ (hc.tail hl)) hl)

/-- What hangs together with a node is the same if all of it is the same in both graphs. -/
theorem connected_iff_of_sameAt (h : g.WellFormed) (h' : g'.WellFormed)
    (hsame : ∀ m, g.Connected n m → SameAt g g' m) : g'.Connected n m ↔ g.Connected n m := by
  refine ⟨fun hc => ?_, connected_of_sameAt h h' hsame⟩
  induction hc with
  | refl => exact .refl g n
  | @tail a b _ hl ih =>
    -- The next node is found in the first graph through the link, which is there as well.
    obtain ⟨s, t, hs, hp, ht⟩ := (linked_iff_peer h').mp hl
    have hs : g.owner? s = some a := ((hsame a ih).owner h h').mp hs
    rw [(hsame a ih).peer s hs] at hp
    obtain ⟨b', hb'⟩ := peer?_owner h hp
    have hl' : g.Linked a b' := (linked_iff_peer h).mpr ⟨s, t, hs, hp, hb'⟩
    have hb : g'.owner? t = some b' := ((hsame b' (ih.tail hl')).owner h h').mpr hb'
    rw [ht] at hb
    cases hb
    exact ih.tail hl'

end Graph
end BlockGraph
