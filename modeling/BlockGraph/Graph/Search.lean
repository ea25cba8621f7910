import BlockGraph.Ty.Basic

/-!
Searching a directed graph.

`reach` collects what can be reached from given vertices.  `Digraph.order` lists the vertices so
that every edge leads from an earlier to a later one, if there is no cycle.  Its result is fixed by
the order of vertices and edges, and so is the vertex that a cycle is blamed on.
-/

namespace BlockGraph.Search

def unseen (vertices seen : List Nat) : List Nat :=
  vertices.filter fun x => x ∉ seen

theorem length_unseen_cons_lt {vertices seen : List Nat} {x : Nat} (hx : x ∈ vertices)
    (hn : x ∉ seen) : (unseen vertices (x :: seen)).length < (unseen vertices seen).length := by
  have hsplit : unseen vertices (x :: seen) = (unseen vertices seen).filter fun y => y ≠ x := by
    simp only [unseen, List.filter_filter, List.mem_cons]
    exact List.filter_congr fun y _ => by grind
  rw [hsplit, List.length_filter_lt_length_iff_exists]
  exact ⟨x, by simp [unseen, hx, hn], by simp⟩

/-- Those of the given vertices that can be reached from the first list, and those that have been
seen. -/
def reach (next : Nat → List Nat) (vertices : List Nat) : List Nat → List Nat → List Nat
  | [], seen => seen
  | x :: todo, seen =>
    if _h : x ∈ vertices ∧ x ∉ seen then reach next vertices (next x ++ todo) (x :: seen)
    else reach next vertices todo seen
termination_by todo seen => ((unseen vertices seen).length, todo.length)
decreasing_by
  · exact Prod.Lex.left _ _ (length_unseen_cons_lt _h.1 _h.2)
  · exact Prod.Lex.right _ (by simp)

/-- Vertices and edges, both in the order in which they are looked at. -/
structure Digraph where
  vertices : List Nat
  edges : List (Nat × Nat)

namespace Digraph

def successors (g : Digraph) (x : Nat) : List Nat :=
  (g.edges.filter fun e => e.1 = x).map Prod.snd

def predecessors (g : Digraph) (x : Nat) : List Nat :=
  (g.edges.filter fun e => e.2 = x).map Prod.fst

/-- Depth-first search from a stack of vertices.  A vertex is finished when all that it leads to has
been finished.  The result lists the finished vertices, the last one first; it is the vertex itself
if some vertex has an edge to itself. -/
def finish (g : Digraph) : (stack seen finished : List Nat) → Except Nat (List Nat)
  | [], _, finished => .ok finished
  | x :: stack, seen, finished =>
    if _h : x ∈ g.vertices ∧ x ∉ seen then
      if x ∈ g.successors x then .error x
      else
        let fresh := (g.successors x).filter fun y => y ∉ x :: seen
        finish g (fresh.reverse ++ x :: stack) (x :: seen) finished
    else finish g stack seen (if x ∈ finished then finished else x :: finished)
termination_by stack seen => ((unseen g.vertices seen).length, stack.length)
decreasing_by
  · exact Prod.Lex.left _ _ (length_unseen_cons_lt _h.1 _h.2)
  · exact Prod.Lex.right _ (by simp)

/-- The last listed predecessor that does not come before its successor, for the first vertex in the
list that has one. -/
def misplaced? (g : Digraph) : (before list : List Nat) → Option Nat
  | _, [] => none
  | before, x :: rest =>
    match ((g.predecessors x).filter fun y => y ∉ x :: before).getLast? with
    | some y => some y
    | none => misplaced? g (x :: before) rest

/-- The vertices in an order in which every edge leads forward, or a vertex on a cycle. -/
def order (g : Digraph) : Except Nat (List Nat) :=
  match g.finish g.vertices [] [] with
  | .error x => .error x
  | .ok list =>
    match g.misplaced? [] list with
    | some x => .error x
    | none => .ok list

end Digraph

end BlockGraph.Search
