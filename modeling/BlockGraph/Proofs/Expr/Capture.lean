import BlockGraph.Proofs.Expr.Coverage

/-!
# Names that a branch captures

The names in an expression come from several places: pattern variables, functions and
constructors, and the fixed names of lists, cases and holes.  Nothing keeps the names that
a branch binds apart from the others.  The bindings around a name are those of the
branches on the way from its place to where the building began, so it is captured if one
of these binds the same name, and a pattern variable is not the only kind of node that
this can happen to.
-/

namespace BlockGraph

def Graph.IsLocal (g : Graph) (x : Build.Origin) : Prop :=
  ∃ n node name, x = .node n ∧ g.node? n = some node ∧ node.block = .localVar name

/-- A name does not come from a pattern variable: it is that of a hole, the one that a node applies,
or a name that cases are made of. -/
def Graph.IsFixed (g : Graph) (x : Build.Origin) (name : String) : Prop :=
  name = Expr.undefName ∨ ∃ n node, (x = .node n ∨ x = .part n) ∧ g.node? n = some node ∧
    (node.block.head? = some name ∨ ∃ type binders, node.block = .caseOf type binders ∧
      name ∈ [Registry.evaluateName, Registry.scrutineeName, Registry.branchName])

namespace Workspace

variable {ws : Workspace} {root : SocketId} {leaf : Expr.Leaf} {errors : List TypeError}
  {x : Build.Origin} {path : List SocketId}

/-- Every name is that of a pattern variable, or one that no binding has an influence on. -/
theorem isLocal_or_isFixed (hx : ws.graph.Stands root errors x path leaf)
    (hname : leaf.isValue = false) :
    ws.graph.IsLocal x ∨ ws.graph.IsFixed x leaf.text := by
  cases hx with
  | node hn _ _ hshows =>
    cases hshows with
    | value => cases hname
    | head hhead => exact .inr (.inr ⟨_, _, .inl rfl, hn, .inl hhead⟩)
    | bound hblock => exact .inl ⟨_, _, _, rfl, hn, hblock⟩
    | unbound hblock => exact .inl ⟨_, _, _, rfl, hn, hblock⟩
    | evaluation hblock =>
      exact .inr (.inr ⟨_, _, .inl rfl, hn, .inr ⟨_, _, hblock, List.mem_cons_self⟩⟩)
    | noInputs => exact .inr (.inl rfl)
  | part hn _ _ hshows =>
    cases hshows with
    | typeName => cases hname
    | combinator hblock hcombinator =>
      exact .inr (.inr ⟨_, _, .inr rfl, hn, .inr ⟨_, _, hblock,
        List.mem_cons_of_mem _ hcombinator⟩⟩)
    | noBranches => exact .inr (.inl rfl)
  | gap => exact .inr (.inl rfl)
  | back => exact .inr (.inl rfl)
  | missing => exact .inr (.inl rfl)

/-- Nothing is built for a socket that is gone, so there is a hole that nothing is bound around. -/
theorem build_missing (hroot : ws.graph.socket? root = none) :
    (ws.build root).expr = Build.hole root ∧
      (ws.build root).errors = [.dangling (.socket root)] := by
  have hout : Build.output ws.graph ws.registry [] [] root =
      Build.reportHole (.dangling (.socket root)) root := by
    rw [Build.output]
    simp only [hroot]
  simp only [build, hout]
  exact ⟨rfl, rfl⟩

theorem build_stands (h : ws.Visited) (root : SocketId)
    (hleaf : leaf ∈ (ws.build root).expr.leaves []) :
    ∃ x path, ws.graph.Stands root (ws.build root).errors x path leaf := by
  cases hroot : ws.graph.socket? root with
  | none =>
    obtain ⟨hexpr, herrors⟩ := build_missing hroot
    rw [hexpr] at hleaf
    obtain rfl := List.mem_singleton.mp hleaf
    exact ⟨_, _, .missing hroot (herrors ▸ List.mem_singleton_self _)⟩
  | some socket =>
    exact (build_accounted h (Graph.owner?_of_socket? hroot)).exists_stands hleaf

/-- The bindings around a name in an expression are those of the branches on the way from its place
to where the building began, so that it is captured exactly if one of these branches binds it.
Unless it was built for a pattern variable, it is the name of a hole, the one that a node applies,
or one that cases are made of. -/
theorem captured_iff (h : ws.Visited) (root : SocketId)
    (hleaf : leaf ∈ (ws.build root).expr.leaves []) (hname : leaf.isValue = false) :
    ∃ x path, ws.graph.Stands root (ws.build root).errors x path leaf ∧
      leaf.around = path.flatMap ws.graph.boundAt ∧
      (leaf.text ∈ leaf.around ↔ ∃ s ∈ path, leaf.text ∈ ws.graph.boundAt s) ∧
      (ws.graph.IsLocal x ∨ ws.graph.IsFixed x leaf.text) := by
  obtain ⟨x, path, hx⟩ := build_stands h root hleaf
  refine ⟨x, path, hx, hx.around_eq, ?_, isLocal_or_isFixed hx hname⟩
  rw [hx.around_eq, List.mem_flatMap]

/-- A function in a branch that binds a variable of the same name, which is the one that a field
gets if none is given. -/
def functionInBranch : List Action :=
  [.defineFunction "a" (.lit "Number" []), .defineType "Box" [⟨"Wrap", [some (.lit "Number" [])]⟩],
    .addNode (.caseOf "Box" []), .addNode (.function "a"), .connect 3 2]

theorem runAll_functionInBranch :
    ∃ ws : Workspace, empty.runAll functionInBranch = some ws ∧
      ⟨some 2, "a", false, ["a"]⟩ ∈ (ws.build 0).expr.leaves [] ∧
      (ws.graph.source? 2).any (fun node => node.block.localName?.isNone) = true := by
  have hchecks : (empty.runAll functionInBranch).any (fun ws =>
      (⟨some 2, "a", false, ["a"]⟩ : Expr.Leaf) ∈ (ws.build 0).expr.leaves [] &&
      (ws.graph.source? 2).any (fun node => node.block.localName?.isNone)) = true := by
    simp only [functionInBranch, runAll, Action.run_defineType]
    cbv
  obtain ⟨ws, hrun, hchecks⟩ := (Option.any_eq_true _ _).mp hchecks
  simp only [Bool.and_eq_true, decide_eq_true_eq] at hchecks
  exact ⟨ws, hrun, hchecks⟩

/-- The function is bound by the branch, at the only input on the way to the cases. -/
theorem captured_iff_functionInBranch :
    ∃ ws : Workspace, empty.runAll functionInBranch = some ws ∧ ws.Visited ∧
      ⟨some 2, "a", false, ["a"]⟩ ∈ (ws.build 0).expr.leaves [] ∧
      ∃ x path, ws.graph.Stands 0 (ws.build 0).errors x path ⟨some 2, "a", false, ["a"]⟩ ∧
        (∃ s ∈ path, "a" ∈ ws.graph.boundAt s) ∧
        (ws.graph.IsLocal x ∨ ws.graph.IsFixed x "a") := by
  obtain ⟨ws, hrun, hleaf, _⟩ := runAll_functionInBranch
  have hvisited : ws.Visited := (Reachable.empty.runAll hrun).visited
  obtain ⟨x, path, hx, _, hcaptured, hkind⟩ := captured_iff hvisited 0 hleaf rfl
  exact ⟨ws, hrun, hvisited, hleaf, x, path, hx, hcaptured.mp List.mem_cons_self, hkind⟩

/-- A binding can capture a name that was not built for a pattern variable. -/
theorem not_hygienic :
    ∃ ws : Workspace, empty.runAll functionInBranch = some ws ∧
      ¬ ∀ leaf ∈ (ws.build 0).expr.leaves [], leaf.isValue = false → leaf.text ∈ leaf.around →
        ∃ node, leaf.tag.bind ws.graph.source? = some node ∧ node.block.localName?.isSome := by
  obtain ⟨ws, hrun, hleaf, hsource⟩ := runAll_functionInBranch
  refine ⟨ws, hrun, fun hygienic => ?_⟩
  obtain ⟨node, hnode, hlocal⟩ := hygienic _ hleaf rfl List.mem_cons_self
  have hnode : ws.graph.source? 2 = some node := hnode
  rw [hnode, Option.any_some] at hsource
  rw [Option.isNone_iff_eq_none.mp hsource] at hlocal
  cases hlocal

end Workspace

end BlockGraph
