import BlockGraph.Proofs.Graph.Order
import Mathlib.Dynamics.PeriodicPts.Defs

/-!
# Links in another order

A graph keeps its links in the order in which they were made.  The order shows in the
lists of neighbours and in the edges that the search for an order of nodes looks at,
and with them in the vertex that a cycle is blamed on.

It makes no difference, because no socket has two links.  A list of neighbours has at
most one member.  A node has one output, so it feeds at most one other node and the
search has no choice either.  What is left is the check for edges that lead back,
which takes the last listed of several predecessors.  Where every vertex leads to at
most one other there is at most one to take: an edge leads back only if the search has
come from its end to its start, so both lie on one cycle, and a vertex has one
predecessor on a cycle.
-/

namespace BlockGraph

/-- Lists without repetition that have the same members are equal if they have at most one. -/
theorem eq_of_mem_iff_of_subsingleton {α : Type} {l l' : List α} (hl : l.Nodup) (hl' : l'.Nodup)
    (hmem : ∀ x, x ∈ l' ↔ x ∈ l) (hone : ∀ x ∈ l, ∀ y ∈ l, x = y) : l' = l := by
  have hperm : l'.Perm l := (List.perm_ext_iff_of_nodup hl' hl).mpr hmem
  rcases l with _ | ⟨x, _ | ⟨y, rest⟩⟩
  · exact hperm.eq_nil
  · exact List.perm_singleton.mp hperm
  · have hxy : x = y := hone x List.mem_cons_self y (List.mem_cons_of_mem x List.mem_cons_self)
    exact absurd hl (by simp [hxy])

namespace Search.Digraph

variable {d d' : Digraph} {list stack seen finished : List Nat} {x y z : Nat}

/-! ## Edges that lead back -/

def Leads (d : Digraph) : Nat → Nat → Prop :=
  Relation.ReflTransGen fun x y => (x, y) ∈ d.edges

/-! ## Graphs in which every vertex leads to at most one other -/

/-- Every vertex has at most one edge. -/
def Functional (d : Digraph) : Prop :=
  ∀ x y z, (x, y) ∈ d.edges → (x, z) ∈ d.edges → y = z

theorem Functional.predecessor_unique (h : d.Functional) (hy : (y, x) ∈ d.edges)
    (hz : (z, x) ∈ d.edges) (hxy : d.Leads x y) (hxz : d.Leads x z) : y = z := by
  -- The edges as a function, under which both vertices are iterates of `x`.
  let f : Nat → Nat := fun v => ((d.successors v).head?).getD v
  have hf : ∀ {v w}, (v, w) ∈ d.edges → f v = w := by
    intro v w hvw
    have hmem := mem_successors.mpr hvw
    cases hs : d.successors v with
    | nil =>
      rw [hs] at hmem
      exact absurd hmem List.not_mem_nil
    | cons u rest =>
      have hu : (v, u) ∈ d.edges := mem_successors.mp (hs ▸ List.mem_cons_self)
      simp [f, hs, h v u w hu hvw]
  have hiter : ∀ {w}, d.Leads x w → ∃ k, f^[k] x = w := by
    intro w hw
    induction hw with
    | refl => exact ⟨0, rfl⟩
    | tail _ hstep ih =>
      obtain ⟨k, hk⟩ := ih
      exact ⟨k + 1, by rw [Function.iterate_succ_apply', hk, hf hstep]⟩
  have hround : ∀ {w k}, f^[k] x = w → (w, x) ∈ d.edges → Function.IsPeriodicPt f (k + 1) x := by
    intro w k hk hw
    rw [Function.IsPeriodicPt, Function.IsFixedPt, Function.iterate_succ_apply', hk, hf hw]
  obtain ⟨a, ha⟩ := hiter hxy
  obtain ⟨b, hb⟩ := hiter hxz
  have hy' : f^[a + (a + 1) * b] x = y := by
    rw [Function.iterate_add_apply, ((hround ha hy).mul_const b).eq, ha]
  have hz' : f^[b + (b + 1) * a] x = z := by
    rw [Function.iterate_add_apply, ((hround hb hz).mul_const a).eq, hb]
  have hcount : a + (a + 1) * b = b + (b + 1) * a := by
    rw [Nat.succ_mul, Nat.succ_mul, Nat.mul_comm]
    omega
  rw [← hy', ← hz', hcount]

theorem successors_nodup (h : d.edges.Nodup) (x : Nat) : (d.successors x).Nodup := by
  refine List.Nodup.map_on (fun e he e' he' heq => ?_) (h.filter _)
  have hx : e.1 = x := of_decide_eq_true (List.mem_filter.mp he).2
  have hx' : e'.1 = x := of_decide_eq_true (List.mem_filter.mp he').2
  exact Prod.ext (hx.trans hx'.symm) heq

theorem predecessors_nodup (h : d.edges.Nodup) (x : Nat) : (d.predecessors x).Nodup := by
  refine List.Nodup.map_on (fun e he e' he' heq => ?_) (h.filter _)
  have hx : e.2 = x := of_decide_eq_true (List.mem_filter.mp he).2
  have hx' : e'.2 = x := of_decide_eq_true (List.mem_filter.mp he').2
  exact Prod.ext heq (hx.trans hx'.symm)

theorem finish_congr (hvertices : d'.vertices = d.vertices)
    (hsucc : ∀ x, d'.successors x = d.successors x) :
    d'.finish stack seen finished = d.finish stack seen finished := by
  induction stack, seen, finished using finish.induct d with
  | case1 seen finished => rw [finish, finish]
  | case2 x stack seen finished hx hself =>
    rw [finish, finish, hvertices, hsucc, dif_pos hx, dif_pos hx, if_pos hself, if_pos hself]
  | case3 x stack seen finished hx hself fresh ih =>
    rw [finish, finish, hvertices, hsucc, dif_pos hx, dif_pos hx, if_neg hself, if_neg hself]
    exact ih
  | case4 x stack seen finished hx ih =>
    rw [finish, finish, hvertices, dif_neg hx, dif_neg hx]
    by_cases hfin : x ∈ finished
    · rw [dif_pos hfin] at ih
      rw [if_pos hfin]
      exact ih
    · rw [dif_neg hfin] at ih
      rw [if_neg hfin]
      exact ih

/-- The check finds the same vertex where there is at most one to find. -/
theorem misplaced?_congr {before : List Nat} (hnodup : d.edges.Nodup) (hnodup' : d'.edges.Nodup)
    (hedges : ∀ e, e ∈ d'.edges ↔ e ∈ d.edges)
    (hone : ∀ l x r, list = l ++ x :: r → ∀ y z, (y, x) ∈ d.edges → (z, x) ∈ d.edges →
      y ∉ x :: (l.reverse ++ before) → z ∉ x :: (l.reverse ++ before) → y = z) :
    d'.misplaced? before list = d.misplaced? before list := by
  induction list generalizing before with
  | nil => rfl
  | cons x rest ih =>
    have hfilter : (d'.predecessors x).filter (fun y => y ∉ x :: before) =
        (d.predecessors x).filter (fun y => y ∉ x :: before) := by
      refine eq_of_mem_iff_of_subsingleton ((predecessors_nodup hnodup x).filter _)
        ((predecessors_nodup hnodup' x).filter _) (fun y => ?_) fun y hy z hz => ?_
      · simp only [List.mem_filter, mem_predecessors, hedges]
      · obtain ⟨hy, hy'⟩ := List.mem_filter.mp hy
        obtain ⟨hz, hz'⟩ := List.mem_filter.mp hz
        exact hone [] x rest rfl y z (mem_predecessors.mp hy) (mem_predecessors.mp hz)
          (of_decide_eq_true hy') (of_decide_eq_true hz')
    rw [misplaced?, misplaced?, hfilter]
    split
    · rfl
    · refine ih fun l w r hlist y z hy hz hy' hz' => ?_
      refine hone (x :: l) w r (by rw [hlist, List.cons_append]) y z hy hz ?_ ?_
      · rwa [List.reverse_cons, List.append_assoc]
      · rwa [List.reverse_cons, List.append_assoc]

/-- Where every vertex leads to at most one other, the order of the edges makes no difference to the
order that is found, or to the vertex that a cycle is blamed on. -/
theorem order_congr (hfunctional : d.Functional) (hvertices : d'.vertices = d.vertices)
    (hnodup : d.edges.Nodup) (hnodup' : d'.edges.Nodup) (hedges : ∀ e, e ∈ d'.edges ↔ e ∈ d.edges)
    (hends : ∀ x y, (x, y) ∈ d.edges → x ∈ d.vertices ∧ y ∈ d.vertices) :
    d'.order = d.order := by
  have hsucc : ∀ x, d'.successors x = d.successors x := fun x => by
    refine eq_of_mem_iff_of_subsingleton (successors_nodup hnodup x) (successors_nodup hnodup' x)
      (fun y => ?_) fun y hy z hz => ?_
    · rw [mem_successors, mem_successors, hedges]
    · exact hfunctional x y z (mem_successors.mp hy) (mem_successors.mp hz)
  rw [order, order, hvertices, finish_congr hvertices hsucc]
  split
  · rfl
  next list hfinish =>
  have hlisted := finish_covers hfinish
  have hsingle := finish_nodup hfinish
  have hbacked : d.Backed d.Leads list := finish_backed (fun x y hxy => (hends x y hxy).2)
    (fun _ _ hxy => .single hxy) (fun _ _ _ hxy hyz => .tail hxy hyz) hfinish
  have hone : ∀ l x r, list = l ++ x :: r → ∀ y, (y, x) ∈ d.edges →
      y ∉ x :: (l.reverse ++ []) → d.Leads x y := by
    intro l x r hlist y hy hnot
    have hmem := hlisted y (hends y x hy).1
    rw [List.append_nil, List.mem_cons, List.mem_reverse, not_or] at hnot
    rw [hlist, List.mem_append, List.mem_cons] at hmem
    have hr : y ∈ r := (hmem.resolve_left hnot.2).resolve_left hnot.1
    obtain ⟨r₁, r₂, rfl⟩ := List.append_of_mem hr
    have hsplit : list = (l ++ x :: r₁) ++ y :: r₂ := by
      rw [hlist, List.append_assoc, List.cons_append]
    refine (Backed.of_append (hsplit ▸ hbacked) (mem_successors.mpr hy)).resolve_left fun hx => ?_
    rw [hlist] at hsingle
    have hdisjoint := (List.nodup_cons.mp (List.nodup_append.mp hsingle).2.1).1
    exact hdisjoint (List.mem_append_right r₁ (List.mem_cons_of_mem y hx))
  rw [misplaced?_congr hnodup hnodup' hedges fun l x r hlist y z hy hz hy' hz' =>
    hfunctional.predecessor_unique hy hz (hone l x r hlist y hy hy') (hone l x r hlist z hz hz')]

end Search.Digraph

/-! ## Links that lead to the same sockets -/

namespace Links

variable {ls ls' : Links} {a b : SocketId}

/-- Two sets of links lead from every socket to the same ones, in the same order. -/
structure Agree (ls ls' : Links) : Prop where
  inputsOf : ∀ s, ls'.inputsOf s = ls.inputsOf s
  outputsOf : ∀ s, ls'.outputsOf s = ls.outputsOf s

theorem inputsOf_eq (ls : Links) (s : SocketId) :
    ls.inputsOf s =
      ls.newestFirst.filterMap fun l => if l.output = s then some l.input else none := by
  rw [inputsOf, newestFirst, List.filterMap_map]
  rfl

theorem outputsOf_eq (ls : Links) (s : SocketId) :
    ls.outputsOf s =
      ls.newestFirst.filterMap fun l => if l.input = s then some l.output else none := by
  rw [outputsOf, newestFirst, List.filterMap_map]
  rfl

theorem mem_inputsOf : b ∈ ls.inputsOf a ↔ ⟨a, b⟩ ∈ ls.newestFirst := by
  rw [inputsOf_eq, List.mem_filterMap]
  constructor
  · rintro ⟨l, hl, hb⟩
    obtain ⟨rfl, rfl⟩ : l.output = a ∧ l.input = b := by simpa using hb
    exact hl
  · exact fun h => ⟨_, h, by simp⟩

theorem mem_outputsOf : a ∈ ls.outputsOf b ↔ ⟨a, b⟩ ∈ ls.newestFirst := by
  rw [outputsOf_eq, List.mem_filterMap]
  constructor
  · rintro ⟨l, hl, hb⟩
    obtain ⟨rfl, rfl⟩ : l.input = b ∧ l.output = a := by simpa using hb
    exact hl
  · exact fun h => ⟨_, h, by simp⟩

theorem Agree.mem_iff (h : Agree ls ls') (l : Link) : l ∈ ls'.newestFirst ↔ l ∈ ls.newestFirst := by
  rw [← mem_inputsOf, ← mem_inputsOf, h.inputsOf]

theorem inputsOf_nodup (h : ls.Simple) (s : SocketId) : (ls.inputsOf s).Nodup := by
  rw [inputsOf_eq]
  refine h.nodup.filterMap fun l l' b hl hl' => ?_
  obtain ⟨rfl, rfl⟩ : l.output = s ∧ l.input = b := by simpa using hl
  obtain ⟨ho, hi⟩ : l'.output = l.output ∧ l'.input = l.input := by simpa using hl'
  exact (Link.mk.injEq ..).mpr ⟨ho.symm, hi.symm⟩

theorem outputsOf_nodup (h : ls.Simple) (s : SocketId) : (ls.outputsOf s).Nodup := by
  rw [outputsOf_eq]
  refine h.nodup.filterMap fun l l' a hl hl' => ?_
  obtain ⟨rfl, rfl⟩ : l.input = s ∧ l.output = a := by simpa using hl
  obtain ⟨hi, ho⟩ : l'.input = l.input ∧ l'.output = l.output := by simpa using hl'
  exact (Link.mk.injEq ..).mpr ⟨ho.symm, hi.symm⟩

/-- Where no socket has two links, the order of the links cannot be told from what they lead to. -/
theorem Simple.agree (h : ls.Simple) (h' : ls'.Simple)
    (hmem : ∀ l, l ∈ ls'.newestFirst ↔ l ∈ ls.newestFirst) : Agree ls ls' where
  inputsOf s := by
    refine eq_of_mem_iff_of_subsingleton (inputsOf_nodup h s) (inputsOf_nodup h' s) (fun b => ?_)
      fun b hb b' hb' => h.input_unique s b b' (mem_inputsOf.mp hb) (mem_inputsOf.mp hb')
    rw [mem_inputsOf, mem_inputsOf, hmem]
  outputsOf s := by
    refine eq_of_mem_iff_of_subsingleton (outputsOf_nodup h s) (outputsOf_nodup h' s) (fun a => ?_)
      fun a ha a' ha' => h.output_unique a a' s (mem_outputsOf.mp ha) (mem_outputsOf.mp ha')
    rw [mem_outputsOf, mem_outputsOf, hmem]

end Links

/-! ## Graphs with other links -/

namespace Graph

variable {g : Graph} {links : Links}

/-- The graph with other links between its sockets. -/
def relink (g : Graph) (links : Links) : Graph :=
  { g with links }

section Agree

variable (h : g.links.Agree links)
include h

theorem neighbours_relink (s : SocketId) : (g.relink links).neighbours s = g.neighbours s :=
  congrArg₂ (· ++ ·) (h.inputsOf s) (h.outputsOf s)

theorem peer?_relink (s : SocketId) : (g.relink links).peer? s = g.peer? s :=
  congrArg List.head? (neighbours_relink h s)

theorem component_relink (seeds : List SocketId) :
    (g.relink links).component seeds = g.component seeds := by
  have hneighbours : (g.relink links).neighbours = g.neighbours := funext (neighbours_relink h)
  have hlinked : (g.relink links).linkedNodes = g.linkedNodes := funext fun n => by
    rw [linkedNodes, linkedNodes, hneighbours]
    rfl
  rw [component, component, hlinked]
  rfl

theorem linksInto_relink (nodes : List NodeId) :
    (g.relink links).linksInto nodes = g.linksInto nodes := by
  have hpeer : (g.relink links).peer? = g.peer? := funext (peer?_relink h)
  rw [linksInto, linksInto, hpeer]
  rfl

theorem componentsFrom_relink (covered nodes : List NodeId) :
    (g.relink links).componentsFrom covered nodes = g.componentsFrom covered nodes := by
  induction nodes generalizing covered with
  | nil => rfl
  | cons n rest ih =>
    rw [componentsFrom, componentsFrom]
    split
    · exact ih covered
    · simp only [component_relink h, ih]
      rfl

theorem components_relink : (g.relink links).components = g.components :=
  componentsFrom_relink h [] g.nodeIds

theorem wired_relink (a b : SocketId) : (g.relink links).Wired a b ↔ g.Wired a b :=
  h.mem_iff ⟨a, b⟩

theorem feeds_relink (m n : NodeId) : (g.relink links).Feeds m n ↔ g.Feeds m n := by
  refine exists₂_congr fun a b => and_congr (wired_relink h a b) ?_
  rfl

end Agree

/-- The order of the links makes no difference to the order of the nodes. -/
theorem topologicalOrder_relink (h : g.WellFormed) (h' : (g.relink links).WellFormed)
    (hlinks : g.links.Agree links) (nodes : List NodeId) :
    (g.relink links).topologicalOrder nodes = g.topologicalOrder nodes := by
  have horder : ((g.relink links).dependencies fun n => n ∈ nodes).order =
      (g.dependencies fun n => n ∈ nodes).order := by
    refine Search.Digraph.order_congr (fun x y z hy hz => ?_) rfl (firsts_nodup _) (firsts_nodup _)
      (fun e => ?_) fun x y he => dependencies_edges h he
    · exact Feeds.unique h ((mem_dependencies_edges h).mp hy).1 ((mem_dependencies_edges h).mp hz).1
    · obtain ⟨m, n⟩ := e
      rw [mem_dependencies_edges h', mem_dependencies_edges h, feeds_relink hlinks]
  rw [topologicalOrder, horder, topologicalOrder]

end Graph
end BlockGraph
