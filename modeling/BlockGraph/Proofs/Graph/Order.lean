import BlockGraph.Proofs.Graph.Component

/-!
# The order of nodes

A directed graph without cycles has a rank function that grows along every edge,
and this is the form in which the absence of cycles is stated here.  If the search
gives an order, the places in it are such ranks.  If there are ranks, the search
gives an order: the vertices on the stack above one that is not finished have
higher ranks, so a vertex that is looked at again has nothing left above it.

The search is a loop over a stack.  `Keeps` is what has to be shown of an invariant, one
field for each move, and `Keeps.holds` is the induction over the loop.
-/

namespace BlockGraph

namespace Search.Digraph

variable {d : Digraph} {list stack seen finished : List Nat} {x y : Nat}

theorem mem_successors : y ∈ d.successors x ↔ (x, y) ∈ d.edges := by
  simp [successors]

theorem mem_predecessors : y ∈ d.predecessors x ↔ (y, x) ∈ d.edges := by
  simp [predecessors]

/-! ## An order that was found -/

/-- A property of stack, seen and finished vertices that a search keeps: when it visits a vertex,
when it passes by a finished one, and when it finishes one. -/
structure Keeps (d : Digraph) (I : List Nat → List Nat → List Nat → Prop) : Prop where
  visit : ∀ x stack seen finished, x ∈ d.vertices → x ∉ seen → x ∉ d.successors x →
    I (x :: stack) seen finished →
    I (((d.successors x).filter fun y => y ∉ x :: seen).reverse ++ x :: stack) (x :: seen) finished
  pass : ∀ x stack seen finished, (x ∈ d.vertices → x ∈ seen) → x ∈ finished →
    I (x :: stack) seen finished → I stack seen finished
  finish : ∀ x stack seen finished, (x ∈ d.vertices → x ∈ seen) → x ∉ finished →
    I (x :: stack) seen finished → I stack seen (x :: finished)

theorem Keeps.holds {I : List Nat → List Nat → List Nat → Prop} (hkeeps : d.Keeps I)
    (h : d.finish stack seen finished = .ok list) (hI : I stack seen finished) :
    ∃ seen, I [] seen list := by
  induction stack, seen, finished using finish.induct d with
  | case1 seen finished =>
    rw [Digraph.finish] at h
    cases h
    exact ⟨seen, hI⟩
  | case2 x stack seen finished hx hself =>
    rw [Digraph.finish, dif_pos hx, if_pos hself] at h
    cases h
  | case3 x stack seen finished hx hself fresh ih =>
    rw [Digraph.finish, dif_pos hx, if_neg hself] at h
    exact ih h (hkeeps.visit x stack seen finished hx.1 hx.2 hself hI)
  | case4 x stack seen finished hx ih =>
    rw [Digraph.finish, dif_neg hx] at h
    have hseen : x ∈ d.vertices → x ∈ seen := fun hv =>
      Classical.byContradiction fun hn => hx ⟨hv, hn⟩
    refine ih h ?_
    split
    · next hfin => exact hkeeps.pass x stack seen finished hseen hfin hI
    · next hfin => exact hkeeps.finish x stack seen finished hseen hfin hI

theorem finish_covers (h : d.finish d.vertices [] [] = .ok list) : ∀ y ∈ d.vertices, y ∈ list := by
  have hkeeps : d.Keeps fun stack _ finished => ∀ y ∈ d.vertices, y ∈ stack ∨ y ∈ finished := by
    refine ⟨fun x stack seen finished _ _ _ hI y hy => ?_,
      fun x stack seen finished _ hx hI y hy => ?_, fun x stack seen finished _ _ hI y hy => ?_⟩
    · exact (hI y hy).imp_left (List.mem_append_right _)
    · rcases hI y hy with hmem | hfin
      · exact (List.mem_cons.mp hmem).elim (fun he => .inr (he ▸ hx)) .inl
      · exact .inr hfin
    · rcases hI y hy with hmem | hfin
      · exact (List.mem_cons.mp hmem).elim (fun he => .inr (he ▸ List.mem_cons_self)) .inl
      · exact .inr (List.mem_cons_of_mem x hfin)
  obtain ⟨_, hcovers⟩ := hkeeps.holds h fun y hy => .inl hy
  exact fun y hy => (hcovers y hy).resolve_left List.not_mem_nil

theorem finish_subset (hedges : ∀ x y, (x, y) ∈ d.edges → y ∈ d.vertices)
    (h : d.finish d.vertices [] [] = .ok list) : ∀ y ∈ list, y ∈ d.vertices := by
  have hkeeps : d.Keeps fun stack _ finished =>
      (∀ y ∈ stack, y ∈ d.vertices) ∧ ∀ y ∈ finished, y ∈ d.vertices := by
    refine ⟨fun x stack seen finished _ _ _ hI => ⟨fun y hy => ?_, hI.2⟩,
      fun x stack seen finished _ _ hI => ⟨(List.forall_mem_cons.mp hI.1).2, hI.2⟩,
      fun x stack seen finished _ _ hI => ?_⟩
    · rcases List.mem_append.mp hy with hy | hy
      · exact hedges x y (mem_successors.mp (List.mem_filter.mp (List.mem_reverse.mp hy)).1)
      · exact hI.1 y hy
    · obtain ⟨hx, hstack⟩ := List.forall_mem_cons.mp hI.1
      exact ⟨hstack, List.forall_mem_cons.mpr ⟨hx, hI.2⟩⟩
  obtain ⟨_, _, hsubset⟩ := hkeeps.holds h ⟨fun y hy => hy, fun y hy => absurd hy List.not_mem_nil⟩
  exact hsubset

theorem finish_nodup (h : d.finish d.vertices [] [] = .ok list) : list.Nodup := by
  have hkeeps : d.Keeps fun _ _ finished => finished.Nodup :=
    ⟨fun _ _ _ _ _ _ _ hI => hI, fun _ _ _ _ _ _ hI => hI,
      fun _ _ _ _ _ hnew hI => List.nodup_cons.mpr ⟨hnew, hI⟩⟩
  obtain ⟨_, hnodup⟩ := hkeeps.holds h .nil
  exact hnodup

theorem finish_no_loop (h : d.finish d.vertices [] [] = .ok list) :
    ∀ y ∈ d.vertices, (y, y) ∉ d.edges := by
  have hkeeps : d.Keeps fun stack seen _ =>
      (∀ y ∈ seen, (y, y) ∉ d.edges) ∧ ∀ y ∈ d.vertices, y ∈ stack ∨ y ∈ seen := by
    have hpop : ∀ (x : Nat) (stack seen : List Nat), (x ∈ d.vertices → x ∈ seen) →
        (∀ y ∈ d.vertices, y ∈ x :: stack ∨ y ∈ seen) →
        ∀ y ∈ d.vertices, y ∈ stack ∨ y ∈ seen := by
      intro x stack seen hx hvertices y hy
      rcases hvertices y hy with hmem | hseen
      · exact (List.mem_cons.mp hmem).elim (fun he => .inr (he ▸ hx (he ▸ hy))) .inl
      · exact .inr hseen
    refine ⟨fun x stack seen finished _ _ hself hI => ⟨?_, fun y hy => ?_⟩,
      fun x stack seen _ hx _ hI => ⟨hI.1, hpop x stack seen hx hI.2⟩,
      fun x stack seen _ hx _ hI => ⟨hI.1, hpop x stack seen hx hI.2⟩⟩
    · exact List.forall_mem_cons.mpr ⟨fun he => hself (mem_successors.mpr he), hI.1⟩
    · exact (hI.2 y hy).imp (List.mem_append_right _) (List.mem_cons_of_mem x)
  obtain ⟨_, hloop, hvertices⟩ := hkeeps.holds h
    ⟨fun y hy => absurd hy List.not_mem_nil, fun y hy => .inl hy⟩
  exact fun y hy => hloop y ((hvertices y hy).resolve_left List.not_mem_nil)

theorem misplaced?_eq_none {before : List Nat} (h : d.misplaced? before list = none) :
    ∀ (l : List Nat) (x : Nat) (r : List Nat), list = l ++ x :: r →
      ∀ y, (y, x) ∈ d.edges → y = x ∨ y ∈ before ∨ y ∈ l := by
  induction list generalizing before with
  | nil => exact fun l x r hlist => absurd hlist (by simp)
  | cons z rest ih =>
    rw [misplaced?] at h
    split at h
    · cases h
    · next hnone =>
      rw [List.getLast?_eq_none_iff, List.filter_eq_nil_iff] at hnone
      intro l x r hlist y hy
      cases l with
      | nil =>
        rw [List.nil_append, List.cons.injEq] at hlist
        obtain ⟨rfl, _⟩ := hlist
        have hbefore := hnone y (mem_predecessors.mpr hy)
        rw [decide_eq_true_iff, Classical.not_not, List.mem_cons] at hbefore
        exact hbefore.imp_right .inl
      | cons z' l =>
        rw [List.cons_append, List.cons.injEq] at hlist
        obtain ⟨rfl, hlist⟩ := hlist
        rcases ih h l x r hlist y hy with hyx | hyz | hyl
        · exact .inl hyx
        · rcases List.mem_cons.mp hyz with rfl | hyz
          · exact .inr (.inr List.mem_cons_self)
          · exact .inr (.inl hyz)
        · exact .inr (.inr (List.mem_cons_of_mem z hyl))

theorem order_nodup (h : d.order = .ok list) : list.Nodup := by
  rw [order] at h
  split at h
  · cases h
  · next list' hfinish =>
    split at h
    · cases h
    · cases h
      exact finish_nodup hfinish

/-- An order lists all vertices, and the places in it are ranks. -/
theorem order_ok (hedges : ∀ x y, (x, y) ∈ d.edges → y ∈ d.vertices)
    (h : d.order = .ok list) :
    (∀ x, x ∈ list ↔ x ∈ d.vertices) ∧
      ∃ rank : Nat → Nat, ∀ x y, (x, y) ∈ d.edges → rank x < rank y := by
  rw [order] at h
  split at h
  · cases h
  · next list' hfinish =>
    split at h
    · cases h
    · next hplaced =>
      cases h
      have hall := finish_covers hfinish
      refine ⟨fun x => ⟨?_, hall x⟩, fun x => list.idxOf x, fun x y hxy => ?_⟩
      · exact finish_subset hedges hfinish x
      · have hv := hedges x y hxy
        obtain ⟨l, r, hsplit, hfirst⟩ := List.eq_append_cons_of_mem (hall y hv)
        rcases misplaced?_eq_none hplaced l y r hsplit x hxy with hself | hnil | hx
        · exact absurd (hself ▸ hxy) (finish_no_loop hfinish y hv)
        · exact absurd hnil List.not_mem_nil
        · have hy : list.idxOf y = l.length := by
            rw [hsplit, List.idxOf_append_of_notMem hfirst, List.idxOf_cons_self, Nat.add_zero]
          show list.idxOf x < list.idxOf y
          rw [hy, hsplit, List.idxOf_append_of_mem hx]
          exact List.idxOf_lt_length_of_mem hx

/-! ## Finding an order -/

/-- What a vertex of the list leads to comes after it. -/
def Closed (d : Digraph) : List Nat → Prop
  | [] => True
  | x :: rest => (∀ y ∈ d.successors x, y ∈ rest) ∧ d.Closed rest

theorem Closed.successor (h : d.Closed list) (hx : x ∈ list) (hy : y ∈ d.successors x) :
    y ∈ list := by
  induction list with
  | nil => exact absurd hx List.not_mem_nil
  | cons z rest ih =>
    rcases List.mem_cons.mp hx with rfl | hx
    · exact List.mem_cons_of_mem x (h.1 y hy)
    · exact List.mem_cons_of_mem z (ih h.2 hx)

theorem misplaced?_of_closed {before : List Nat} (h : d.Closed list) (hnodup : list.Nodup)
    (hfound : ∀ x ∈ list, ∀ y ∈ d.predecessors x, y ∈ before ∨ y ∈ list) :
    d.misplaced? before list = none := by
  induction list generalizing before with
  | nil => rfl
  | cons x rest ih =>
    obtain ⟨hx, hrest⟩ := List.nodup_cons.mp hnodup
    have hnone : (d.predecessors x).filter (fun y => y ∉ x :: before) = [] := by
      rw [List.filter_eq_nil_iff]
      intro y hy
      rw [decide_eq_true_iff, Classical.not_not, List.mem_cons]
      rcases hfound x List.mem_cons_self y hy with hbefore | hlist
      · exact .inr hbefore
      · rcases List.mem_cons.mp hlist with rfl | hlater
        · exact .inl rfl
        · exact absurd (h.2.successor hlater (mem_successors.mpr (mem_predecessors.mp hy))) hx
    rw [misplaced?, hnone]
    refine ih h.2 hrest fun z hz y hy => ?_
    rcases hfound z (List.mem_cons_of_mem x hz) y hy with hbefore | hlist
    · exact .inl (List.mem_cons_of_mem x hbefore)
    · rcases List.mem_cons.mp hlist with rfl | hlater
      · exact .inl List.mem_cons_self
      · exact .inr hlater

variable {R : Nat → Nat → Prop}

/-- What a vertex of the list has an edge to comes after it, or is below it. -/
def Backed (d : Digraph) (R : Nat → Nat → Prop) : List Nat → Prop
  | [] => True
  | x :: rest => (∀ y ∈ d.successors x, y ∈ rest ∨ R y x) ∧ d.Backed R rest

theorem Backed.of_append {before rest : List Nat} (h : d.Backed R (before ++ x :: rest))
    (hy : y ∈ d.successors x) : y ∈ rest ∨ R y x := by
  induction before with
  | nil => exact h.1 y hy
  | cons z before ih => exact ih h.2

/-- Where edges lead upwards only, nothing leads back. -/
theorem Backed.closed (h : d.Backed R list) (hR : ∀ x y, (x, y) ∈ d.edges → ¬ R y x) :
    d.Closed list := by
  induction list with
  | nil => trivial
  | cons x rest ih =>
    refine ⟨fun y hy => (h.1 y hy).resolve_right (hR x y (mem_successors.mp hy)), ih h.2⟩

/-- A vertex that has been seen and is not finished lies on the stack, and it is below everything
above it.  There is all that it has an edge to, unless this is finished or is below it. -/
def Active (d : Digraph) (R : Nat → Nat → Prop) (stack finished : List Nat) (x : Nat) : Prop :=
  ∃ above below, stack = above ++ x :: below ∧ x ∉ above ∧ (∀ z ∈ above, R x z) ∧
    ∀ z ∈ d.successors x, z ∈ finished ∨ z ∈ above ∨ R z x

namespace Active

theorem below_top (h : d.Active R (x :: stack) finished y) (hne : y ≠ x) : R y x := by
  obtain ⟨above, below, hstack, _, habove, _⟩ := h
  cases above with
  | nil =>
    rw [List.nil_append, List.cons.injEq] at hstack
    exact absurd hstack.1.symm hne
  | cons x' above =>
    rw [List.cons_append, List.cons.injEq] at hstack
    exact hstack.1 ▸ habove x' List.mem_cons_self

/-- An active vertex at the top has no edge to anything that is still to be finished, except to what
is below it. -/
theorem top (h : d.Active R (x :: stack) finished x) :
    ∀ z ∈ d.successors x, z ∈ finished ∨ R z x := by
  obtain ⟨above, below, hstack, hnot, _, hsucc⟩ := h
  cases above with
  | nil => exact fun z hz => (hsucc z hz).imp_right fun h => h.resolve_left List.not_mem_nil
  | cons x' above =>
    rw [List.cons_append, List.cons.injEq] at hstack
    exact absurd (hstack.1 ▸ List.mem_cons_self) hnot

theorem pop (h : d.Active R (x :: stack) finished y) (hne : y ≠ x) {finished' : List Nat}
    (hx : x ∈ finished') (hsub : ∀ z ∈ finished, z ∈ finished') : d.Active R stack finished' y := by
  obtain ⟨above, below, hstack, hnot, habove, hsucc⟩ := h
  cases above with
  | nil =>
    rw [List.nil_append, List.cons.injEq] at hstack
    exact absurd hstack.1.symm hne
  | cons x' above =>
    rw [List.cons_append, List.cons.injEq] at hstack
    obtain ⟨rfl, rfl⟩ := hstack
    refine ⟨above, below, rfl, fun hmem => hnot (List.mem_cons_of_mem x hmem),
      fun z hz => habove z (List.mem_cons_of_mem x hz), fun z hz => ?_⟩
    rcases hsucc z hz with hfin | hmem | hback
    · exact .inl (hsub z hfin)
    · rcases List.mem_cons.mp hmem with rfl | hmem
      · exact .inl hx
      · exact .inr (.inl hmem)
    · exact .inr (.inr hback)

theorem push (h : d.Active R stack finished y) {more : List Nat} (hnot : y ∉ more)
    (hmore : ∀ z ∈ more, R y z) : d.Active R (more ++ stack) finished y := by
  obtain ⟨above, below, rfl, hnot', habove, hsucc⟩ := h
  refine ⟨more ++ above, below, by rw [List.append_assoc], ?_, fun z hz => ?_, fun z hz => ?_⟩
  · rw [List.mem_append, not_or]
    exact ⟨hnot, hnot'⟩
  · exact (List.mem_append.mp hz).elim (hmore z) (habove z)
  · exact (hsucc z hz).imp_right fun h => h.imp_left (List.mem_append_right more)

end Active

/-- If edges lead upwards, then in the order in which vertices are finished an edge leads to a
vertex that was finished before, or from one that is above its end to one below. -/
theorem finish_backed (hedges : ∀ x y, (x, y) ∈ d.edges → y ∈ d.vertices)
    (hR : ∀ x y, (x, y) ∈ d.edges → R x y)
    (htrans : ∀ x y z, R x y → (y, z) ∈ d.edges → R x z)
    (h : d.finish d.vertices [] [] = .ok list) : d.Backed R list := by
  have hkeeps : d.Keeps fun stack seen finished => (∀ y ∈ stack, y ∈ d.vertices) ∧
      (∀ y ∈ seen, y ∉ finished → d.Active R stack finished y) ∧ d.Backed R finished := by
    refine ⟨?_, ?_, ?_⟩
    · rintro x stack seen finished hx hnew hself ⟨hstack, hactive, hbacked⟩
      have hfresh : ∀ z ∈ ((d.successors x).filter fun y => y ∉ x :: seen).reverse,
          (x, z) ∈ d.edges ∧ z ∉ x :: seen := fun z hz => by
        obtain ⟨hsucc, hnew⟩ := List.mem_filter.mp (List.mem_reverse.mp hz)
        exact ⟨mem_successors.mp hsucc, of_decide_eq_true hnew⟩
      refine ⟨fun y hy => ?_, fun y hy hnot => ?_, hbacked⟩
      · exact (List.mem_append.mp hy).elim (fun hy => hedges x y (hfresh y hy).1) (hstack y)
      · rcases List.mem_cons.mp hy with rfl | hy
        · refine ⟨_, stack, rfl, fun hmem => (hfresh y hmem).2 List.mem_cons_self,
            fun z hz => hR y z (hfresh z hz).1, fun z hz => ?_⟩
          -- An edge to a vertex that is still active leads down: the search has come from there.
          by_cases hseen : z ∈ y :: seen
          · have hne : z ≠ y := fun he => hself (he ▸ hz)
            have hold := (List.mem_cons.mp hseen).resolve_left hne
            by_cases hfin : z ∈ finished
            · exact .inl hfin
            · exact .inr (.inr ((hactive z hold hfin).below_top hne))
          · exact .inr (.inl (List.mem_reverse.mpr
              (List.mem_filter.mpr ⟨hz, decide_eq_true hseen⟩)))
        · have hold := hactive y hy hnot
          have hbelow := hold.below_top fun he => hnew (he ▸ hy)
          exact hold.push (fun hmem => (hfresh y hmem).2 (List.mem_cons_of_mem x hy))
            fun z hz => htrans y x z hbelow (hfresh z hz).1
    · rintro x stack seen finished _ hfin ⟨hstack, hactive, hbacked⟩
      refine ⟨(List.forall_mem_cons.mp hstack).2, fun y hy hnot => ?_, hbacked⟩
      exact (hactive y hy hnot).pop (fun he => hnot (he ▸ hfin)) hfin fun _ hz => hz
    · rintro x stack seen finished hseen hfin ⟨hstack, hactive, hbacked⟩
      obtain ⟨hx, hstack⟩ := List.forall_mem_cons.mp hstack
      refine ⟨hstack, fun y hy hnot => ?_, (hactive x (hseen hx) hfin).top, hbacked⟩
      rw [List.mem_cons, not_or] at hnot
      exact (hactive y hy hnot.2).pop hnot.1 List.mem_cons_self
        fun z hz => List.mem_cons_of_mem x hz
  obtain ⟨_, _, _, hbacked⟩ := hkeeps.holds h
    ⟨fun y hy => hy, fun y hy => absurd hy List.not_mem_nil, trivial⟩
  exact hbacked

/-- The search comes to an end unless a vertex has an edge to itself. -/
theorem finish_ok (hself : ∀ x, (x, x) ∉ d.edges) (stack seen finished : List Nat) :
    ∃ list, d.finish stack seen finished = .ok list := by
  induction stack, seen, finished using finish.induct d with
  | case1 seen finished => exact ⟨finished, by rw [finish]⟩
  | case2 x stack seen finished hx hloop => exact absurd (mem_successors.mp hloop) (hself x)
  | case3 x stack seen finished hx hloop fresh ih =>
    rw [finish, dif_pos hx, if_neg hloop]
    exact ih
  | case4 x stack seen finished hx ih =>
    rw [finish, dif_neg hx]
    exact ih

/-- Where there are ranks an order is found. -/
theorem order_complete (rank : Nat → Nat)
    (hedges : ∀ x y, (x, y) ∈ d.edges → x ∈ d.vertices ∧ y ∈ d.vertices)
    (hrank : ∀ x y, (x, y) ∈ d.edges → rank x < rank y) : ∃ list, d.order = .ok list := by
  obtain ⟨list, hfinish⟩ :=
    finish_ok (fun x hx => Nat.lt_irrefl _ (hrank x x hx)) d.vertices [] []
  have hbacked : d.Backed (fun x y => rank x < rank y) list :=
    finish_backed (fun x y hxy => (hedges x y hxy).2) hrank
      (fun x y z hxy hyz => Nat.lt_trans hxy (hrank y z hyz)) hfinish
  have hclosed := hbacked.closed fun x y hxy => Nat.lt_asymm (hrank x y hxy)
  have hplaced : d.misplaced? [] list = none := by
    refine misplaced?_of_closed hclosed (finish_nodup hfinish) fun x _ y hy => .inr ?_
    exact finish_covers hfinish y (hedges y x (mem_predecessors.mp hy)).1
  exact ⟨list, by rw [order, hfinish]; simp only [hplaced]⟩

end Search.Digraph

namespace Graph

variable {g g' : Graph} {nodes list : List NodeId} {m n : NodeId}

/-- A link leads from the output of one node to an input of another. -/
def Feeds (g : Graph) (producer consumer : NodeId) : Prop :=
  ∃ a b, g.Wired a b ∧ g.owner? a = some producer ∧ g.owner? b = some consumer

theorem Feeds.linked (h : g.Feeds m n) : g.Linked m n := by
  obtain ⟨a, b, hw, ha, hb⟩ := h
  exact ⟨a, b, ha, hb, .inl hw⟩

/-- A node feeds at most one other, since it has one output and that has one link. -/
theorem Feeds.unique (h : g.WellFormed) {a b c : NodeId} (hb : g.Feeds a b) (hc : g.Feeds a c) :
    b = c := by
  obtain ⟨o, i, hw, ho, hi⟩ := hb
  obtain ⟨o', i', hw', ho', hi'⟩ := hc
  obtain ⟨p, hp⟩ := h.wired_output o i hw
  obtain ⟨p', hp'⟩ := h.wired_output o' i' hw'
  rw [owner?_eq_some_iff.mpr ⟨_, hp⟩] at ho
  rw [owner?_eq_some_iff.mpr ⟨_, hp'⟩] at ho'
  cases ho
  cases ho'
  obtain ⟨node, hn⟩ := hp.node? h
  obtain rfl := (At.output_eq h hn).mp hp
  obtain rfl := (At.output_eq h hn).mp hp'
  rw [h.links.input_unique _ i i' hw hw', hi'] at hi
  exact (Option.some_inj.mp hi).symm

/-- Where no link and no owner of a linked socket is new, no node feeds another one that it did not
feed before. -/
theorem Feeds.of_wired (h : g.WellFormed) (hwired : ∀ a b, g'.Wired a b → g.Wired a b)
    (howner : ∀ s k, g.owner? s ≠ none → g'.owner? s = some k → g.owner? s = some k)
    (hf : g'.Feeds m n) : g.Feeds m n := by
  obtain ⟨a, b, hw, ha, hb⟩ := hf
  have hw := hwired a b hw
  obtain ⟨k, hk⟩ := h.wired_output a b hw
  obtain ⟨l, _, hl⟩ := h.wired_input a b hw
  refine ⟨a, b, hw, howner a m ?_ ha, howner b n ?_ hb⟩
  · rw [owner?_eq_some_iff.mpr ⟨_, hk⟩]
    exact Option.some_ne_none k
  · rw [owner?_eq_some_iff.mpr ⟨_, hl⟩]
    exact Option.some_ne_none l

theorem feeds_congr (h : g'.outline = g.outline) : g'.Feeds = g.Feeds := by
  funext a b
  simp only [Feeds, owner?_congr h, wired_congr h]

theorem mem_dependencies_edges (h : g.WellFormed) {included : NodeId → Bool} :
    (m, n) ∈ (g.dependencies included).edges ↔
      g.Feeds m n ∧ included m = true ∧ included n = true := by
  rw [dependencies, mem_firsts, List.mem_filterMap]
  constructor
  · rintro ⟨⟨a, b⟩, hw, hl⟩
    rw [mem_wires h] at hw
    revert hl
    cases ha : g.owner? a <;> cases hb : g.owner? b
    case some.some p c =>
      simp only []
      split
      · next hinc =>
        rw [Bool.and_eq_true] at hinc
        intro hl
        cases hl
        exact ⟨⟨a, b, hw, ha, hb⟩, hinc⟩
      · intro hl
        cases hl
    all_goals
      intro hl
      cases hl
  · rintro ⟨⟨a, b, hw, ha, hb⟩, hm, hn⟩
    exact ⟨⟨a, b⟩, (mem_wires h).mpr hw, by simp [ha, hb, hm, hn]⟩

theorem dependencies_edges (h : g.WellFormed) {included : NodeId → Bool}
    (he : (m, n) ∈ (g.dependencies included).edges) :
    m ∈ (g.dependencies included).vertices ∧ n ∈ (g.dependencies included).vertices := by
  obtain ⟨⟨a, b, _, ha, hb⟩, hm, hn⟩ := (mem_dependencies_edges h).mp he
  obtain ⟨node, hnode, _⟩ := owner?_node h ha
  obtain ⟨node', hnode', _⟩ := owner?_node h hb
  exact ⟨List.mem_filter.mpr ⟨mem_nodeIds.mpr ⟨node, hnode⟩, hm⟩,
    List.mem_filter.mpr ⟨mem_nodeIds.mpr ⟨node', hnode'⟩, hn⟩⟩

theorem topologicalOrder_ok (h : g.WellFormed) (hlist : g.topologicalOrder nodes = .ok list) :
    (∀ n, n ∈ list ↔ n ∈ nodes ∧ n ∈ g.nodeIds) ∧
      ∃ rank : NodeId → Nat, ∀ m n, m ∈ nodes → n ∈ nodes → g.Feeds m n → rank m < rank n := by
  rw [topologicalOrder] at hlist
  split at hlist
  · next list' horder =>
    cases hlist
    obtain ⟨hmem, rank, hrank⟩ :=
      Search.Digraph.order_ok (fun x y hxy => (dependencies_edges h hxy).2) horder
    refine ⟨fun n => ?_, rank, fun m n hm hn hf => hrank m n ?_⟩
    · rw [hmem, dependencies, List.mem_filter, decide_eq_true_iff, and_comm]
    · exact (mem_dependencies_edges h).mpr ⟨hf, decide_eq_true hm, decide_eq_true hn⟩
  · cases hlist

theorem topologicalOrder_nodup (hlist : g.topologicalOrder nodes = .ok list) : list.Nodup := by
  rw [topologicalOrder] at hlist
  split at hlist
  · next list' horder =>
    cases hlist
    exact Search.Digraph.order_nodup horder
  · cases hlist

theorem topologicalOrder_complete (h : g.WellFormed) {rank : NodeId → Nat}
    (hrank : ∀ m n, m ∈ nodes → n ∈ nodes → g.Feeds m n → rank m < rank n) :
    ∃ list, g.topologicalOrder nodes = .ok list := by
  obtain ⟨list, horder⟩ := Search.Digraph.order_complete rank
    (d := g.dependencies fun n => n ∈ nodes) (fun x y hxy => dependencies_edges h hxy)
    fun x y hxy => by
      obtain ⟨hf, hx, hy⟩ := (mem_dependencies_edges h).mp hxy
      exact hrank x y (of_decide_eq_true hx) (of_decide_eq_true hy) hf
  exact ⟨list, by rw [topologicalOrder, horder]⟩

/-- A link that does not close a cycle leads to a node from which there is no way back. -/
theorem not_wouldCycle (h : g.WellFormed) (hm : m ∈ g.nodeIds)
    (hc : g.wouldCycle n m = false) : ¬ Relation.ReflTransGen g.Feeds m n := by
  intro hpath
  rw [wouldCycle, Bool.or_eq_false_iff, decide_eq_false_iff_not, decide_eq_false_iff_not,
    Search.mem_reach_iff] at hc
  refine hc.2 ⟨m, List.mem_singleton_self m, List.mem_filter.mpr ⟨hm, rfl⟩, ?_⟩
  refine Relation.ReflTransGen.mono (fun a b hab => ?_) _ _ hpath
  have hedge : (a, b) ∈ (g.dependencies fun _ => true).edges :=
    (mem_dependencies_edges h).mpr ⟨hab, rfl, rfl⟩
  exact ⟨Search.Digraph.mem_successors.mpr hedge, (dependencies_edges h hedge).2⟩

end Graph
end BlockGraph
