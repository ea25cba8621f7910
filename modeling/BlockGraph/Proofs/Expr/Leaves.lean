import BlockGraph.Proofs.Expr.Origins
import Mathlib.Data.List.Perm.Basic

/-!
# Leaves of built expressions

The leaves of an expression are its names and values, each with the names that are
bound around it.  `Stands` says what a leaf has to be that is built for a given origin:
its text, the socket it is tagged with, and the bindings around it, which are those of
the branches on the way to where the building began.

`Accounted` says that leaves are built for the origins of a set, each of which is met
once, and that the ways back to the beginning are what is reported as cycles.  Parts of an
expression without origins in common can be put together, and the order of the leaves
does not matter.
-/

namespace BlockGraph

namespace Expr

/-- A name or a value in an expression, and the names that are bound around it, the innermost
first. -/
structure Leaf where
  tag : Option SocketId
  text : String
  isValue : Bool
  around : List String
  deriving DecidableEq

/-- The names and the values in an expression from left to right. -/
def leaves (around : List String) : Expr String → List Leaf
  | var tag name => [⟨tag, name, false, around⟩]
  | lit tag value => [⟨tag, value, true, around⟩]
  | app _ callee arg => callee.leaves around ++ arg.leaves around
  | bind _ name _ body => body.leaves (name :: around)

def Leaf.isHoleAt (leaf : Leaf) (s : SocketId) : Bool :=
  !leaf.isValue && leaf.text = undefName && leaf.tag = some s

theorem Leaf.tag_of_isHoleAt {leaf : Leaf} {s : SocketId} (h : leaf.isHoleAt s = true) :
    leaf.tag = some s := by
  rw [isHoleAt, Bool.and_eq_true, decide_eq_true_eq] at h
  exact h.2

variable {around : List String}

theorem leaves_applyAll (f : Expr String) (args : List (Expr String)) :
    (f.applyAll args).leaves around = f.leaves around ++ args.flatMap (leaves around) := by
  induction args generalizing f with
  | nil => exact (List.append_nil _).symm
  | cons x rest ih =>
    rw [applyAll, List.foldl_cons, ← applyAll, ih, leaves, List.flatMap_cons, List.append_assoc]

/-- The tag of an application is not that of a leaf, so only a name without arguments gets the new
tag. -/
theorem leaves_retag_applyAll (around : List String) (tag tag' : Option SocketId) (name : String)
    (args : List (Expr String)) : ∃ tag'' ∈ [tag, tag'],
      (((var tag name).applyAll args).retag tag').leaves around =
        ⟨tag'', name, false, around⟩ :: args.flatMap (leaves around) := by
  cases hargs : args.reverse with
  | nil =>
    rw [List.reverse_eq_nil_iff.mp hargs]
    exact ⟨tag', List.mem_cons_of_mem _ List.mem_cons_self, rfl⟩
  | cons x rest =>
    refine ⟨tag, List.mem_cons_self, Eq.trans ?_ (leaves_applyAll (var tag name) args)⟩
    rw [← List.reverse_reverse args, hargs, List.reverse_cons, applyAll, List.foldl_append]
    rfl

end Expr

def TypeError.isCycle : TypeError → Bool
  | dangling (.cycle _) => true
  | _ => false

/-- The names that a block binds around what feeds it at a place. -/
def Block.boundAt : Block → Role → List String
  | caseOf _ binders, .input (k + 1) => binders.getD k []
  | _, _ => []

/-- What stands for a node itself: its value, the name that it applies or that of its variable, and
the evaluation in a distinction of cases.  A variable outside the names that are bound is a hole
that is reported, and cases without any input are a hole as well. -/
inductive Node.Shows (node : Node) (around : List String) (errors : List TypeError) :
    String → Bool → Prop
  | value {ty : Ty} {value : String} (h : node.block = .literal ty value) :
      Shows node around errors value true
  | head {name : String} (h : node.block.head? = some name) : Shows node around errors name false
  | bound {name : String} (h : node.block = .localVar name) (hmem : name ∈ around) :
      Shows node around errors name false
  | unbound {name : String} (h : node.block = .localVar name) (hmem : name ∉ around)
      (herror : .invalidSignature (.unboundLocal name) ∈ errors) :
      Shows node around errors Expr.undefName false
  | evaluation {type : String} {binders : List (List String)}
      (h : node.block = .caseOf type binders) : Shows node around errors Registry.evaluateName false
  | noInputs {type : String} {binders : List (List String)} (h : node.block = .caseOf type binders)
      (hinputs : node.inputs = []) : Shows node around errors Expr.undefName false

/-- The other leaves that cases consist of: the name of the type, the names that mark the value and
join the branches, and a hole in place of the branches if there are none. -/
inductive Node.ShowsPart (node : Node) : String → Bool → Prop
  | typeName {type : String} {binders : List (List String)}
      (h : node.block = .caseOf type binders) :
      ShowsPart node type true
  | combinator {type name : String} {binders : List (List String)}
      (h : node.block = .caseOf type binders)
      (hname : name ∈ [Registry.scrutineeName, Registry.branchName]) : ShowsPart node name false
  | noBranches {type : String} {binders : List (List String)}
      (h : node.block = .caseOf type binders)
      (hinputs : node.inputs.length ≤ 1) : ShowsPart node Expr.undefName false

/-- What there can be only one of. -/
def Build.Origin.isCounted : Build.Origin → Bool
  | part _ => false
  | _ => true

namespace Graph

open Build

/-- The names that are bound around what feeds an input. -/
def boundAt (g : Graph) (s : SocketId) : List String :=
  (g.socket? s).elim [] fun socket =>
    (g.node? socket.node).elim [] fun node => node.block.boundAt socket.role

/-- The sockets that the leaf of a node can be tagged with: where the building began, the output, or
the input that the node feeds. -/
def LeadsTo (g : Graph) (root s : SocketId) (n : NodeId) : Prop :=
  (s = root ∧ g.owner? root = some n) ∨ g.At s n .output ∨
    ∃ o, g.peer? s = some o ∧ g.At o n .output

/-- A leaf is what is built for an origin, behind the inputs of a path. -/
inductive Stands (g : Graph) (root : SocketId) (errors : List TypeError) :
    Origin → List SocketId → Expr.Leaf → Prop
  | node {n : NodeId} {node : Node} {path : List SocketId} {s : SocketId} {text : String}
      {isValue : Bool} (hn : g.node? n = some node) (hroute : g.Route root n path)
      (hs : g.LeadsTo root s n) (htext : node.Shows (path.flatMap g.boundAt) errors text isValue) :
      Stands g root errors (.node n) path ⟨some s, text, isValue, path.flatMap g.boundAt⟩
  | part {n : NodeId} {node : Node} {path : List SocketId} {s : SocketId} {text : String}
      {isValue : Bool} (hn : g.node? n = some node) (hroute : g.Route root n path)
      (hs : g.LeadsTo root s n) (htext : node.ShowsPart text isValue) :
      Stands g root errors (.part n) path ⟨some s, text, isValue, path.flatMap g.boundAt⟩
  /-- The names of a branch are bound around what feeds it, so not around the hole of a gap. -/
  | gap {n : NodeId} {path : List SocketId} {s : SocketId} {k : Nat} (hs : g.At s n (.input k))
      (hvacant : g.Vacant s) (hroute : g.Route root n path) :
      Stands g root errors (.gap s) path
        ⟨some s, Expr.undefName, false, path.flatMap g.boundAt⟩
  | back {n r : NodeId} {path : List SocketId} {s o : SocketId} {k : Nat}
      (hs : g.At s n (.input k)) (hp : g.peer? s = some o) (ho : g.At o r .output)
      (hr : g.owner? root = some r) (hroute : g.Route root n path)
      (herror : .dangling (.cycle r) ∈ errors) :
      Stands g root errors (.back s) (s :: path)
        ⟨some s, Expr.undefName, false, (s :: path).flatMap g.boundAt⟩
  | missing (hroot : g.socket? root = none) (herror : .dangling (.socket root) ∈ errors) :
      Stands g root errors (.gap root) [] ⟨some root, Expr.undefName, false, []⟩

/-- What is reported of the ways back to where the building began. -/
def cycleReports (g : Graph) (root : SocketId) (origins : List Origin) : List TypeError :=
  origins.filterMap fun
    | .back _ => (g.owner? root).map fun r => .dangling (.cycle r)
    | _ => none

/-- Leaves are built for origins, among which those of a set are met once and no others. -/
structure Account (g : Graph) (root : SocketId) (X : Origin → Prop) (errors : List TypeError)
    (origins : List Origin) (leaves : List Expr.Leaf) : Prop where
  stands : List.Forall₂ (fun x leaf => ∃ path, g.Stands root errors x path leaf) origins leaves
  nodup : (origins.filter Origin.isCounted).Nodup
  mem : ∀ x, x ∈ origins.filter Origin.isCounted ↔ X x
  cycles : (errors.filter TypeError.isCycle).Perm (g.cycleReports root origins)

def Accounted (g : Graph) (root : SocketId) (X : Origin → Prop) (errors : List TypeError)
    (leaves : List Expr.Leaf) : Prop :=
  ∃ origins, g.Account root X errors origins leaves

variable {g : Graph} {root s : SocketId} {n : NodeId} {node : Node} {role : Role}
  {errors errors' : List TypeError} {x : Origin} {path : List SocketId} {leaf : Expr.Leaf}
  {X Y : Origin → Prop} {leaves leaves' : List Expr.Leaf}

theorem boundAt_eq (hn : g.node? n = some node) (hs : g.At s n role) :
    g.boundAt s = node.block.boundAt role := by
  obtain ⟨socket, hsocket, rfl, rfl⟩ := hs
  simp [boundAt, hsocket, hn]

theorem Stands.mono (h : g.Stands root errors x path leaf) (hsub : errors ⊆ errors') :
    g.Stands root errors' x path leaf := by
  cases h with
  | node hn hroute hs htext =>
    refine .node hn hroute hs ?_
    cases htext with
    | value h => exact .value h
    | head h => exact .head h
    | bound h hmem => exact .bound h hmem
    | unbound h hmem herror => exact .unbound h hmem (hsub herror)
    | evaluation h => exact .evaluation h
    | noInputs h hinputs => exact .noInputs h hinputs
  | part hn hroute hs htext => exact .part hn hroute hs htext
  | gap hs hvacant hroute => exact .gap hs hvacant hroute
  | back hs hp ho hr hroute herror => exact .back hs hp ho hr hroute (hsub herror)
  | missing hroot herror => exact .missing hroot (hsub herror)

/-- The names around a leaf are those that are bound on its path. -/
theorem Stands.around_eq (h : g.Stands root errors x path leaf) :
    leaf.around = path.flatMap g.boundAt := by
  cases h <;> rfl

theorem Accounted.exists_stands (h : g.Accounted root X errors leaves) (hleaf : leaf ∈ leaves) :
    ∃ x path, g.Stands root errors x path leaf := by
  obtain ⟨origins, haccount⟩ := h
  have hstands := haccount.stands
  clear haccount
  induction hstands with
  | nil => exact absurd hleaf List.not_mem_nil
  | cons hx _ ih =>
    rcases List.mem_cons.mp hleaf with rfl | hleaf
    · exact ⟨_, hx⟩
    · exact ih hleaf

theorem Account.count {origins : List Origin} (h : g.Account root X errors origins leaves)
    (hx : x.isCounted) : (X x → origins.count x = 1) ∧ (¬ X x → origins.count x = 0) := by
  rw [← List.count_filter hx, h.nodup.count]
  exact ⟨fun hX => if_pos ((h.mem x).mpr hX), fun hX => if_neg fun hmem => hX ((h.mem x).mp hmem)⟩

/-- If there is only one way back, the cycle is reported for every leaf that is built for it. -/
theorem cycleReports_eq {r : NodeId} (hr : g.owner? root = some r) {origins : List Origin}
    (hunique : ∀ t, .back t ∈ origins → t = s) :
    g.cycleReports root origins =
      List.replicate (origins.count (.back s)) (.dangling (.cycle r)) := by
  induction origins with
  | nil => rfl
  | cons x rest ih =>
    have hrest := ih fun t ht => hunique t (List.mem_cons_of_mem x ht)
    cases x with
    | back t =>
      obtain rfl := hunique t List.mem_cons_self
      have hcons : g.cycleReports root (.back t :: rest) =
          .dangling (.cycle r) :: g.cycleReports root rest := by
        simp [cycleReports, hr]
      rw [hcons, hrest, List.count_cons_self, List.replicate_succ]
    | _ =>
      rw [List.count_cons_of_ne (by simp), ← hrest]
      rfl

namespace Accounted

theorem nil (hX : ∀ x, ¬ X x) : g.Accounted root X [] [] :=
  ⟨[], .nil, .nil,
    fun x => ⟨fun hx => absurd hx List.not_mem_nil, fun hx => absurd hx (hX x)⟩, .nil⟩

theorem singleton (h : g.Stands root errors x path leaf) (hx : x.isCounted)
    (hcycles : errors.filter TypeError.isCycle = g.cycleReports root [x]) :
    g.Accounted root (· = x) errors [leaf] := by
  have hfilter : [x].filter Origin.isCounted = [x] := List.filter_cons_of_pos hx
  refine ⟨[x], .cons ⟨path, h⟩ .nil, ?_, fun y => ?_, .of_eq hcycles⟩
  · rw [hfilter]
    exact List.nodup_singleton x
  · rw [hfilter]
    exact List.mem_singleton

theorem parts (h : ∀ leaf ∈ leaves, ∃ path, g.Stands root [] (.part n) path leaf) :
    g.Accounted root (fun _ => False) [] leaves := by
  have hfilter : (leaves.map fun _ => Origin.part n).filter Origin.isCounted = [] := by
    rw [List.filter_eq_nil_iff]
    intro x hx
    obtain ⟨_, _, rfl⟩ := List.mem_map.mp hx
    exact Bool.false_ne_true
  refine ⟨leaves.map fun _ => .part n, ?_, ?_, fun x => ?_, ?_⟩
  · rw [List.forall₂_map_left_iff, List.forall₂_same]
    exact h
  · rw [hfilter]
    exact .nil
  · rw [hfilter]
    exact iff_of_false List.not_mem_nil id
  · have hreports : g.cycleReports root (leaves.map fun _ => .part n) = [] := by
      rw [cycleReports, List.filterMap_eq_nil_iff]
      intro x hx
      obtain ⟨_, _, rfl⟩ := List.mem_map.mp hx
      rfl
    rw [hreports]
    exact .nil

theorem append (h : g.Accounted root X errors leaves) (h' : g.Accounted root Y errors' leaves')
    (hdisjoint : ∀ x, X x → ¬ Y x) :
    g.Accounted root (fun x => X x ∨ Y x) (errors ++ errors') (leaves ++ leaves') := by
  obtain ⟨origins, hstands, hnodup, hmem, hcycles⟩ := h
  obtain ⟨origins', hstands', hnodup', hmem', hcycles'⟩ := h'
  refine ⟨origins ++ origins', List.rel_append ?_ ?_, ?_, fun x => ?_, ?_⟩
  · refine hstands.imp ?_
    rintro _ _ ⟨path, hx⟩
    exact ⟨path, hx.mono (List.subset_append_left _ _)⟩
  · refine hstands'.imp ?_
    rintro _ _ ⟨path, hx⟩
    exact ⟨path, hx.mono (List.subset_append_right _ _)⟩
  · rw [List.filter_append]
    refine List.nodup_append'.mpr ⟨hnodup, hnodup', fun x hx hx' => ?_⟩
    exact hdisjoint x ((hmem x).mp hx) ((hmem' x).mp hx')
  · rw [List.filter_append, List.mem_append, hmem, hmem']
  · rw [List.filter_append, cycleReports, List.filterMap_append]
    exact hcycles.append hcycles'

theorem perm (h : g.Accounted root X errors leaves) (hperm : leaves.Perm leaves') :
    g.Accounted root X errors leaves' := by
  obtain ⟨origins, hstands, hnodup, hmem, hcycles⟩ := h
  obtain ⟨origins', hstands', hperm'⟩ := List.perm_comp_forall₂ hperm.symm hstands.flip
  refine ⟨origins', hstands'.flip, ?_, fun x => ?_, ?_⟩
  · exact ((hperm'.filter _).nodup_iff).mpr hnodup
  · rw [(hperm'.filter _).mem_iff, hmem]
  · exact hcycles.trans (hperm'.symm.filterMap _)

theorem congr (h : g.Accounted root X errors leaves) (hX : ∀ x, Y x ↔ X x) :
    g.Accounted root Y errors leaves := by
  obtain ⟨origins, hstands, hnodup, hmem, hcycles⟩ := h
  exact ⟨origins, hstands, hnodup, fun x => (hmem x).trans (hX x).symm, hcycles⟩

theorem add_parts (h : g.Accounted root X errors leaves) {parts : List Expr.Leaf}
    (hparts : ∀ leaf ∈ parts, ∃ path, g.Stands root [] (.part n) path leaf)
    (hperm : leaves'.Perm (parts ++ leaves)) : g.Accounted root X errors leaves' :=
  (((Accounted.parts hparts).append h fun _ hx => absurd hx not_false).congr
    fun _ => (iff_of_eq (false_or _)).symm).perm hperm.symm

end Accounted

end Graph

end BlockGraph
