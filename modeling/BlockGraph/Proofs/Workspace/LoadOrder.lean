import BlockGraph.Loading
import BlockGraph.Proofs.Graph.Relinking
import BlockGraph.Proofs.Workspace.Revision

/-!
# Loading in any order of links

A description lists the links of a workspace in some order.  They are attached one
after another, and then all types are worked out at once.  The order in which they
were attached makes no difference to that: rebuilding and checking look at links only
through what they lead to.
-/

namespace BlockGraph

namespace Graph

variable {g : Graph} {links : Links}

theorem foldl_modifySocket_relink {α : Type} (key : α → SocketId) (f : α → Socket → Socket)
    (g : Graph) (links : Links) (l : List α) :
    l.foldl (fun g a => g.modifySocket (key a) (f a)) (g.relink links) =
      (l.foldl (fun g a => g.modifySocket (key a) (f a)) g).relink links := by
  induction l generalizing g with
  | nil => rfl
  | cons a rest ih => exact ih (g.modifySocket (key a) (f a))

theorem setTypes_relink (types : List (SocketId × Ty)) :
    (g.relink links).setTypes types = (g.setTypes types).relink links :=
  foldl_modifySocket_relink Prod.fst (fun e socket => { socket with ty := e.2 }) g links types

end Graph

namespace Workspace

variable {ws : Workspace} {links : Links}

def relink (ws : Workspace) (links : Links) : Workspace :=
  { ws with graph := ws.graph.relink links }

section Agree

variable (hlinks : ws.graph.links.Agree links)
include hlinks

theorem bindingSite?_relink (n : NodeId) :
    bindingSite? (ws.graph.relink links) none n = bindingSite? ws.graph none n := by
  refine bindingSite?_congr (P := fun _ => True) rfl (fun o _ => Iff.rfl) (fun o _ => ?_)
    (fun _ _ _ _ _ _ => trivial) fun _ _ => trivial
  have hpeer := Graph.peer?_relink hlinks o
  rw [consumerWaypoint?, consumerWaypoint?, consumerNode?, consumerNode?, consumer?,
    consumer?, hpeer]
  rfl

theorem settledState_relink (s : SocketId) :
    (ws.relink links).settledState s = ws.settledState s := by
  have hpeer : (ws.relink links).graph.peer? s = ws.graph.peer? s := Graph.peer?_relink hlinks s
  rw [settledState, settledState, hpeer]
  rfl

theorem instanceOf_relink (n : NodeId) (node : Node) :
    (ws.relink links).instanceOf n node = ws.instanceOf n node := by
  have hbinding : (ws.relink links).binding? none n = ws.binding? none n := by
    rw [binding?, binding?, relink, bindingSite?_relink hlinks]
  simp only [instanceOf, hbinding]
  rfl

theorem freshInstance_relink (n : NodeId) :
    (ws.relink links).freshInstance n = (ws.freshInstance n).relink links := by
  have hnode : (ws.relink links).graph.node? n = ws.graph.node? n := rfl
  simp only [freshInstance, hnode, instanceOf_relink hlinks]
  cases ws.graph.node? n with
  | none => rfl
  | some node => simp only [relink, Graph.setTypes_relink]

end Agree

theorem freshInstance_links (ws : Workspace) (n : NodeId) :
    (ws.freshInstance n).graph.links = ws.graph.links := by
  have hsame : ws.freshInstance n = (ws.freshInstance n).relink ws.graph.links :=
    freshInstance_relink ⟨fun _ => rfl, fun _ => rfl⟩ n
  rw [hsame]
  rfl

theorem foldl_freshInstance_relink (hlinks : ws.graph.links.Agree links) (nodes : List NodeId) :
    nodes.foldl freshInstance (ws.relink links) = (nodes.foldl freshInstance ws).relink links := by
  induction nodes generalizing ws with
  | nil => rfl
  | cons n rest ih =>
    rw [List.foldl_cons, List.foldl_cons, freshInstance_relink hlinks]
    exact ih (freshInstance_links ws n ▸ hlinks)

theorem foldl_freshInstance_links (ws : Workspace) (nodes : List NodeId) :
    (nodes.foldl freshInstance ws).graph.links = ws.graph.links := by
  induction nodes generalizing ws with
  | nil => rfl
  | cons n rest ih => exact (ih (ws.freshInstance n)).trans (freshInstance_links ws n)

theorem invalidate_relink (e : TypeError) (sockets : List SocketId) :
    (ws.relink links).invalidate e sockets = (ws.invalidate e sockets).relink links :=
  congrArg (fun g => { ws with graph := g }) (Graph.foldl_modifySocket_relink id _ _ _ sockets)

theorem settle_relink (hlinks : ws.graph.links.Agree links) (solver : Solver)
    (failures : List (Link × TypeError)) (sockets : List SocketId) :
    (ws.relink links).settle solver failures sockets =
      (ws.settle solver failures sockets).relink links := by
  have hstate : (ws.relink links).settledState = ws.settledState :=
    funext (settledState_relink hlinks)
  rw [settle, hstate]
  exact congrArg (fun g => { ws with graph := g })
    (Graph.foldl_modifySocket_relink id _ _ _ sockets)

/-- A rebuild lists the same errors and leaves the same types and states, whatever order the links
have. -/
theorem recompute_relink (h : ws.graph.WellFormed) (h' : (ws.relink links).graph.WellFormed)
    (hlinks : ws.graph.links.Agree links) (seeds : List SocketId) :
    (ws.relink links).recompute seeds =
      ((ws.recompute seeds).1, (ws.recompute seeds).2.relink links) := by
  have hcomponent : (ws.relink links).graph.component seeds = ws.graph.component seeds :=
    Graph.component_relink hlinks seeds
  have hsame : (ws.relink links).graph.topologicalOrder
      ((ws.relink links).graph.component seeds).nodes =
        ws.graph.topologicalOrder (ws.graph.component seeds).nodes := by
    rw [hcomponent]
    exact Graph.topologicalOrder_relink h h' hlinks _
  cases horder : ws.graph.topologicalOrder (ws.graph.component seeds).nodes with
  | error cycle =>
    rw [recompute_of_cycle h horder, recompute_of_cycle h' (hsame.trans horder), hcomponent,
      foldl_freshInstance_relink hlinks, invalidate_relink]
    rfl
  | ok order =>
    obtain ⟨ws₁, solved, rfl, rfl, heq⟩ := recompute_of_order h horder
    obtain ⟨ws₁', solved', rfl, rfl, heq'⟩ := recompute_of_order h' (hsame.trans horder)
    have hlinksInto : (ws.relink links).graph.linksInto order = ws.graph.linksInto order :=
      Graph.linksInto_relink hlinks order
    have hlinks₁ := foldl_freshInstance_links ws (ws.graph.component seeds).nodes ▸ hlinks
    rw [heq, heq', hcomponent, hlinksInto, foldl_freshInstance_relink hlinks, settle_relink hlinks₁]
    rfl

theorem recomputeEach_relink (h : ws.graph.WellFormed) (h' : (ws.relink links).graph.WellFormed)
    (hlinks : ws.graph.links.Agree links) (nodes : List NodeId) :
    (ws.relink links).recomputeEach nodes =
      ((ws.recomputeEach nodes).1, (ws.recomputeEach nodes).2.relink links) := by
  induction nodes generalizing ws with
  | nil => rfl
  | cons n rest ih =>
    have hseeds : (ws.relink links).graph.socketAt? n .output = ws.graph.socketAt? n .output := rfl
    have hshape := (recompute_redrawn h (ws.graph.socketAt? n .output).toList).sameShape
    have hshape' := (recompute_redrawn h' (ws.graph.socketAt? n .output).toList).sameShape
    rw [recompute_relink h h' hlinks] at hshape'
    simp only [recomputeEach, hseeds, recompute_relink h h' hlinks]
    rw [ih (hshape.wellFormed.mpr h) (hshape'.wellFormed.mpr h')
      (Graph.links_congr hshape.outline ▸ hlinks)]

theorem resolveAll_relink (h : ws.graph.WellFormed) (h' : (ws.relink links).graph.WellFormed)
    (hlinks : ws.graph.links.Agree links) :
    (ws.relink links).resolveAll = (ws.resolveAll.1, ws.resolveAll.2.relink links) := by
  have hcomponents : (ws.relink links).graph.components = ws.graph.components :=
    Graph.components_relink hlinks
  rw [resolveAll, hcomponents]
  exact recomputeEach_relink h h' hlinks _

/-! ## Checking -/

theorem inScope_relink (hlinks : ws.graph.links.Agree links) (n : NodeId) (node : Node)
    (result : Ty) (s : Supply) :
    (ws.relink links).inScope n node result s = ws.inScope n node result s := by
  have hsite : bindingSite? (ws.relink links).graph none n = bindingSite? ws.graph none n :=
    bindingSite?_relink hlinks n
  simp only [inScope, hsite]
  rfl

theorem deriveAll_relink (hlinks : ws.graph.links.Agree links) (entries : List (NodeId × Node))
    (s : Supply) : (ws.relink links).deriveAll entries s = ws.deriveAll entries s := by
  induction entries generalizing s with
  | nil => rfl
  | cons e rest ih =>
    have hderived : (ws.relink links).derived = ws.derived := rfl
    simp only [deriveAll, hderived, inScope_relink hlinks, ih]

theorem solveComponents_relink {g : Graph} (h : g.WellFormed) (h' : (g.relink links).WellFormed)
    (hlinks : g.links.Agree links) (types : SocketId → Option Ty) (solver : Solver)
    (cs : List Component) :
    solveComponents (g.relink links) types solver cs = solveComponents g types solver cs := by
  induction cs generalizing solver with
  | nil => rfl
  | cons c rest ih =>
    simp only [solveComponents, Graph.topologicalOrder_relink h h' hlinks,
      Graph.linksInto_relink hlinks, ih]

theorem validate_relink (h : ws.graph.WellFormed) (h' : (ws.relink links).graph.WellFormed)
    (hlinks : ws.graph.links.Agree links) : (ws.relink links).validate = ws.validate := by
  have hderived : (ws.relink links).deriveAll (ws.relink links).graph.nodes.entries
      (ws.relink links).supply = ws.deriveAll ws.graph.nodes.entries ws.supply :=
    deriveAll_relink hlinks _ _
  have hcomponents : (ws.relink links).graph.components = ws.graph.components :=
    Graph.components_relink hlinks
  simp only [validate, hderived, hcomponents]
  exact congrArg _ (solveComponents_relink h h' hlinks _ _ _)

end Workspace

/-! ## Attaching a number of links -/

namespace Graph

variable {g : Graph} {o i o' i' : SocketId} {p c p' c' : NodeId} {e : Link} {es es' : List Link}

/-- After a link has been made, another one can be made if it could before and has no end in common
with it. -/
theorem Linkable.wire_iff (h : g.WellFormed) (hl : Linkable g o i p c) :
    Linkable (g.wire o i) o' i' p' c' ↔ Linkable g o' i' p' c' ∧ o ≠ o' ∧ i ≠ i' := by
  have hsimple := (hl.wellFormed h).links
  have hwired : (g.wire o i).Wired o i := wired_wire.mpr (.inl ⟨rfl, rfl⟩)
  have hcross : ∀ {o i p c k}, g.At o p .output → g.At i c (.input k) → o ≠ i := by
    rintro o _ p c k ho hi rfl
    cases (ho.unique hi).2
  obtain ⟨k, hk⟩ := hl.input
  constructor
  · rintro ⟨ho, ⟨k', hi⟩, hofree, hifree⟩
    have hne : o ≠ o' := by
      rintro rfl
      exact ((peer?_eq_none_iff hsimple).mp hofree i).1 hwired
    have hne' : i ≠ i' := by
      rintro rfl
      exact ((peer?_eq_none_iff hsimple).mp hifree o).2 hwired
    refine ⟨⟨ho, ⟨k', hi⟩, ?_, ?_⟩, hne, hne'⟩
    · rw [← hl.peer?_of_ne h hne.symm (hcross ho hk), hofree]
    · rw [← hl.peer?_of_ne h (hcross hl.output hi).symm hne'.symm, hifree]
  · rintro ⟨⟨ho, ⟨k', hi⟩, hofree, hifree⟩, hne, hne'⟩
    refine ⟨ho, ⟨k', hi⟩, ?_, ?_⟩
    · rw [hl.peer?_of_ne h hne.symm (hcross ho hk), hofree]
    · rw [hl.peer?_of_ne h (hcross hl.output hi).symm hne'.symm, hifree]

/-- Links that can be made together: each between free sockets, and no two with an end in common. -/
structure Joinable (g : Graph) (es : List Link) : Prop where
  linkable : ∀ e ∈ es, ∃ p c, Linkable g e.output e.input p c
  apart : es.Pairwise fun e e' => e.output ≠ e'.output ∧ e.input ≠ e'.input

theorem joinable_cons (h : g.WellFormed) (hl : Linkable g e.output e.input p c) :
    Joinable g (e :: es) ↔ Joinable (g.wire e.output e.input) es := by
  constructor
  · rintro ⟨hlinkable, hapart⟩
    obtain ⟨he, hapart⟩ := List.pairwise_cons.mp hapart
    refine ⟨fun e' he' => ?_, hapart⟩
    obtain ⟨p', c', hl'⟩ := hlinkable e' (List.mem_cons_of_mem e he')
    exact ⟨p', c', (hl.wire_iff h).mpr ⟨hl', he e' he'⟩⟩
  · rintro ⟨hlinkable, hapart⟩
    have hbefore : ∀ e' ∈ es, (∃ p' c', Linkable g e'.output e'.input p' c') ∧
        e.output ≠ e'.output ∧ e.input ≠ e'.input := by
      intro e' he'
      obtain ⟨p', c', hl'⟩ := hlinkable e' he'
      obtain ⟨hl', hne⟩ := (hl.wire_iff h).mp hl'
      exact ⟨⟨p', c', hl'⟩, hne⟩
    refine ⟨List.forall_mem_cons.mpr ⟨⟨p, c, hl⟩, fun e' he' => (hbefore e' he').1⟩, ?_⟩
    exact List.pairwise_cons.mpr ⟨fun e' he' => (hbefore e' he').2, hapart⟩

theorem Joinable.perm (hj : Joinable g es) (hperm : es'.Perm es) : Joinable g es' where
  linkable e he := hj.linkable e (hperm.mem_iff.mp he)
  apart := (hperm.pairwise_iff fun h => ⟨h.1.symm, h.2.symm⟩).mpr hj.apart

end Graph

namespace Workspace

variable {ws : Workspace} {es es' : List Link}

def attachedAll (ws : Workspace) (es : List Link) : Workspace :=
  es.foldl (fun ws e => ws.attached e.output e.input) ws

/-- Links that can be made together keep the graph in order and change nothing but links. -/
theorem attachedAll_spec (h : ws.graph.WellFormed) (hj : ws.graph.Joinable es) :
    (ws.attachedAll es).graph.WellFormed ∧
      ws.attachedAll es = ws.relink (ws.attachedAll es).graph.links ∧
        ∀ l, l ∈ (ws.attachedAll es).graph.links.newestFirst ↔
          l ∈ es ∨ l ∈ ws.graph.links.newestFirst := by
  induction es generalizing ws with
  | nil => exact ⟨h, rfl, fun l => by simp [attachedAll]⟩
  | cons e rest ih =>
    obtain ⟨p, c, hl⟩ := hj.linkable e List.mem_cons_self
    have hstep : (ws.attached e.output e.input).graph.WellFormed := hl.wellFormed h
    obtain ⟨hwell, heq, hmem⟩ := ih hstep ((Graph.joinable_cons h hl).mp hj)
    refine ⟨hwell, heq, fun l => (hmem l).trans ?_⟩
    rw [attached, Graph.wire, Links.mem_newestFirst_insert, List.mem_cons]
    exact or_left_comm.trans or_assoc.symm

theorem attachedAll_perm (h : ws.graph.WellFormed) (hj : ws.graph.Joinable es)
    (hperm : es'.Perm es) :
    (ws.attachedAll es).graph.links.Agree (ws.attachedAll es').graph.links ∧
      ws.attachedAll es' = (ws.attachedAll es).relink (ws.attachedAll es').graph.links := by
  obtain ⟨hwell, heq, hmem⟩ := attachedAll_spec h hj
  obtain ⟨hwell', heq', hmem'⟩ := attachedAll_spec h (hj.perm hperm)
  refine ⟨hwell.links.agree hwell'.links fun l => ?_, ?_⟩
  · rw [hmem, hmem', hperm.mem_iff]
  · rw [heq, heq']
    rfl

end Workspace

/-! ## Loading -/

namespace Loading

variable {α : Type}

open Workspace

variable {ws ws' : Workspace} {names : List (String × NodeId)}

def ends? (names : List (String × NodeId)) (g : Graph) (l : DescribedLink) : Option Link := do
  let source ← names.lookup l.source
  let target ← names.lookup l.target
  let output ← g.socketAt? source .output
  let input ← g.socketAt? target (.input l.input)
  return ⟨output, input⟩

theorem bind_eq_ok {ε β : Type} {x : Except ε α} {f : α → Except ε β} {b : β}
    (h : x >>= f = .ok b) : ∃ a, x = .ok a ∧ f a = .ok b := by
  cases x with
  | error e => cases h
  | ok a => exact ⟨a, rfl, h⟩

theorem attempt_ok {edit : Edit α} {r : α × Workspace} (hok : attempt edit ws = .ok r) :
    edit ws = .ok r.1 r.2 := by
  unfold attempt at hok
  split at hok
  next hedit =>
    cases hok
    exact hedit
  next => cases hok

/-- The first link must have ends that exist and are free. -/
theorem links_cons_iff {l : DescribedLink} {rest : List DescribedLink} :
    links names (l :: rest) ws = .ok ws' ↔
      ∃ e, ends? names ws.graph l = some e ∧ (∃ p c, ws.graph.Linkable e.output e.input p c) ∧
        links names rest (ws.attached e.output e.input) = .ok ws' := by
  rw [links, node, node, ends?]
  cases names.lookup l.source with
  | none => simp [bind, Except.bind]
  | some source =>
    cases names.lookup l.target with
    | none => simp [bind, Except.bind]
    | some target =>
      cases houtput : ws.graph.socketAt? source .output with
      | none => simp [bind, Except.bind, houtput]
      | some o =>
        cases hinput : ws.graph.socketAt? target (.input l.input) with
        | none => simp [bind, Except.bind, houtput, hinput]
        | some i =>
          simp only [bind, Except.bind, houtput, hinput, Option.bind, pure, Option.some.injEq,
            exists_eq_left']
          constructor
          · intro hok
            split at hok
            · cases hok
            next r hattempt =>
            obtain ⟨hl, heq⟩ := attach_ok (attempt_ok hattempt)
            exact ⟨hl, heq ▸ hok⟩
          · rintro ⟨⟨p, c, hl⟩, hrest⟩
            rw [attempt, attach_eq hl]
            exact hrest

/-- Described links can be attached one after another just if they can be made together. -/
theorem links_ok_iff {ls : List DescribedLink} (h : ws.graph.WellFormed) :
    links names ls ws = .ok ws' ↔ (∀ l ∈ ls, (ends? names ws.graph l).isSome) ∧
      ws.graph.Joinable (ls.filterMap (ends? names ws.graph)) ∧
        ws' = ws.attachedAll (ls.filterMap (ends? names ws.graph)) := by
  induction ls generalizing ws ws' with
  | nil =>
    refine ⟨fun hok => ?_, ?_⟩
    · cases hok
      exact ⟨fun _ hl => absurd hl List.not_mem_nil,
        ⟨fun _ he => absurd he List.not_mem_nil, .nil⟩, rfl⟩
    · rintro ⟨_, _, rfl⟩
      rfl
  | cons l rest ih =>
    rw [links_cons_iff]
    constructor
    · rintro ⟨e, he, ⟨p, c, hl⟩, hrest⟩
      obtain ⟨hends, hj, rfl⟩ := (ih (hl.wellFormed h)).mp hrest
      rw [List.filterMap_cons_some he]
      exact ⟨List.forall_mem_cons.mpr ⟨he ▸ rfl, hends⟩, (Graph.joinable_cons h hl).mpr hj, rfl⟩
    · rintro ⟨hends, hj, rfl⟩
      obtain ⟨hfirst, hends⟩ := List.forall_mem_cons.mp hends
      obtain ⟨e, he⟩ := Option.isSome_iff_exists.mp hfirst
      rw [List.filterMap_cons_some he] at hj ⊢
      obtain ⟨p, c, hl⟩ := hj.linkable e List.mem_cons_self
      have hwell : (ws.attached e.output e.input).graph.WellFormed := hl.wellFormed h
      exact ⟨e, he, ⟨p, c, hl⟩, (ih hwell).mpr ⟨hends, (Graph.joinable_cons h hl).mp hj, rfl⟩⟩

theorem reachable_of_attempt {edit : Edit α} {r : α × Workspace} (action : Action)
    (h : ws.Reachable) (haction : action.run ws = after? edit ws) (hok : attempt edit ws = .ok r) :
    r.2.Reachable := by
  refine .run h (haction.trans ?_)
  rw [after?, attempt_ok hok]

theorem types_reachable {ts : List DescribedType} (h : ws.Reachable)
    (hok : types ts ws = .ok ws') : ws'.Reachable := by
  induction ts generalizing ws with
  | nil =>
    cases hok
    exact h
  | cons t rest ih =>
    obtain ⟨_, _, hok⟩ := bind_eq_ok hok
    obtain ⟨⟨name, ws₁⟩, hattempt, hok⟩ := bind_eq_ok hok
    have h := reachable_of_attempt (.defineType _ _) h rfl hattempt
    dsimp only at hok
    split at hok
    · exact ih h hok
    · cases hok

theorem functions_reachable {fs : List (String × String)} (h : ws.Reachable)
    (hok : functions fs ws = .ok ws') : ws'.Reachable := by
  induction fs generalizing ws with
  | nil =>
    cases hok
    exact h
  | cons f rest ih =>
    obtain ⟨_, _, hok⟩ := bind_eq_ok hok
    obtain ⟨_, hattempt, hok⟩ := bind_eq_ok hok
    exact ih (reachable_of_attempt (.defineFunction _ _) h rfl hattempt) hok

theorem branch_reachable {n : NodeId} {b place : Nat} {given : List String} (h : ws.Reachable)
    (hok : branch n b place given ws = .ok ws') : ws'.Reachable := by
  induction given generalizing ws place with
  | nil =>
    cases hok
    exact h
  | cons name rest ih =>
    obtain ⟨_, hattempt, hok⟩ := bind_eq_ok hok
    exact ih (reachable_of_attempt (.renameBinder _ _ _ _) h rfl hattempt) hok

theorem branches_reachable {n : NodeId} {place : Nat} {given : List (List String)}
    (h : ws.Reachable) (hok : branches n place given ws = .ok ws') : ws'.Reachable := by
  induction given generalizing ws place with
  | nil =>
    cases hok
    exact h
  | cons names rest ih =>
    obtain ⟨_, hbranch, hok⟩ := bind_eq_ok hok
    exact ih (branch_reachable h hbranch) hok

theorem nodes_reachable {ns : List (String × DescribedNode)} (h : ws.Reachable)
    (hok : nodes ns ws = .ok (names, ws')) : ws'.Reachable := by
  induction ns generalizing ws names with
  | nil =>
    cases hok
    exact h
  | cons n rest ih =>
    obtain ⟨_, _, hok⟩ := bind_eq_ok hok
    obtain ⟨_, hattempt, hok⟩ := bind_eq_ok hok
    obtain ⟨_, hbranches, hok⟩ := bind_eq_ok hok
    obtain ⟨_, hrest, hok⟩ := bind_eq_ok hok
    cases hok
    have h := reachable_of_attempt (.addNode _) h rfl hattempt
    exact ih (branches_reachable h hbranches) hrest

theorem links_reachable {ls : List DescribedLink} (h : ws.Reachable)
    (hok : links names ls ws = .ok ws') : ws'.Reachable := by
  induction ls generalizing ws with
  | nil =>
    cases hok
    exact h
  | cons l rest ih =>
    obtain ⟨e, _, ⟨p, c, hl⟩, hrest⟩ := links_cons_iff.mp hok
    have hrun : (Action.attach e.output e.input).run ws =
        some (ws.attached e.output e.input) := by
      rw [Action.run, after?, attach_eq hl]
    exact ih (.run h hrun) hrest

end Loading

/-! ## Descriptions -/

/-- Two results of loading that differ at most in the order of links. -/
structure Loaded.Same (l l' : Loaded) : Prop where
  names : l'.nodes = l.nodes
  errors : l'.errors = l.errors
  registry : l'.workspace.registry = l.workspace.registry
  nodes : l'.workspace.graph.nodes = l.workspace.graph.nodes
  /-- Sockets have the same types and states. -/
  sockets : l'.workspace.graph.sockets = l.workspace.graph.sockets
  wires : l'.workspace.graph.wires.Perm l.workspace.graph.wires

namespace Description

open Loading

variable {d : Description} {links : List DescribedLink} {l : Loaded}

/-- What is loaded once all links are attached. -/
def resolved (names : List (String × NodeId)) (ws : Workspace) : Loaded :=
  { workspace := ws.resolveAll.2, nodes := names, errors := ws.resolveAll.2.validate }

theorem load_ok_iff : d.load = .ok l ↔ ∃ ws₁ ws₂ names ws ws',
    Loading.types d.types .empty = .ok ws₁ ∧ Loading.functions d.functions ws₁ = .ok ws₂ ∧
      Loading.nodes d.nodes ws₂ = .ok (names, ws) ∧ Loading.links names d.links ws = .ok ws' ∧
        l = resolved names ws' := by
  constructor
  · intro hok
    obtain ⟨ws₁, htypes, hok⟩ := bind_eq_ok hok
    obtain ⟨ws₂, hfunctions, hok⟩ := bind_eq_ok hok
    obtain ⟨⟨names, ws⟩, hnodes, hok⟩ := bind_eq_ok hok
    obtain ⟨ws', hlinks, hok⟩ := bind_eq_ok hok
    cases hok
    exact ⟨ws₁, ws₂, names, ws, ws', htypes, hfunctions, hnodes, hlinks, rfl⟩
  · rintro ⟨ws₁, ws₂, names, ws, ws', htypes, hfunctions, hnodes, hlinks, rfl⟩
    simp only [load, htypes, hfunctions, hnodes, hlinks, bind, Except.bind]
    rfl

theorem resolved_relink {ws : Workspace} {links : Links} (h : ws.Sound)
    (h' : (ws.relink links).Sound) (hlinks : ws.graph.links.Agree links)
    (names : List (String × NodeId)) :
    (resolved names ws).Same (resolved names (ws.relink links)) := by
  have heq : (ws.relink links).resolveAll.2 = ws.resolveAll.2.relink links := by
    rw [Workspace.resolveAll_relink h.graph h'.graph hlinks]
  have hgraph := (Workspace.resolveAll_sound h).graph
  have hgraph' := (Workspace.resolveAll_sound h').graph
  rw [heq] at hgraph'
  rw [← Graph.links_congr (Workspace.resolveAll_sameShape h).outline] at hlinks
  refine ⟨rfl, ?_, congrArg (·.registry) heq, congrArg (·.graph.nodes) heq,
    congrArg (·.graph.sockets) heq, ?_⟩
  · rw [resolved, resolved, heq]
    exact Workspace.validate_relink hgraph hgraph' hlinks
  · rw [resolved, resolved, heq]
    refine (Links.byNumber_perm hgraph'.links.numbered).trans
      (.trans ?_ (Links.byNumber_perm hgraph.links.numbered).symm)
    exact (List.perm_ext_iff_of_nodup hgraph'.links.nodup hgraph.links.nodup).mpr hlinks.mem_iff

theorem load_of_perm (hperm : links.Perm d.links) (hok : d.load = .ok l) :
    ∃ l', { d with links }.load = .ok l' ∧ l.Same l' := by
  obtain ⟨ws₁, ws₂, names, ws, ws', htypes, hfunctions, hnodes, hlinks, rfl⟩ := load_ok_iff.mp hok
  have hws : ws.Reachable :=
    nodes_reachable (functions_reachable (types_reachable .empty htypes) hfunctions) hnodes
  have hws' := links_reachable hws hlinks
  obtain ⟨hends, hj, rfl⟩ := (links_ok_iff hws.sound.graph).mp hlinks
  have hperm' : (links.filterMap (ends? names ws.graph)).Perm
      (d.links.filterMap (ends? names ws.graph)) := hperm.filterMap _
  have hlinks' := (links_ok_iff hws.sound.graph).mpr
    ⟨fun l hl => hends l (hperm.mem_iff.mp hl), hj.perm hperm', rfl⟩
  have hother := links_reachable hws hlinks'
  refine ⟨_, load_ok_iff.mpr
    ⟨ws₁, ws₂, names, ws, _, htypes, hfunctions, hnodes, hlinks', rfl⟩, ?_⟩
  obtain ⟨hagree, heq⟩ := Workspace.attachedAll_perm hws.sound.graph hj hperm'
  rw [heq] at hother ⊢
  exact resolved_relink hws'.sound hother.sound hagree names

/-- The order of the links in a description makes no difference.  In another order they are refused
just if they were, and otherwise give the same nodes, types, states and errors, with the same
links. -/
theorem load_links_perm (d : Description) {links : List DescribedLink}
    (hperm : links.Perm d.links) :
    ((∃ l, d.load = .ok l) ↔ ∃ l', { d with links }.load = .ok l') ∧
      ∀ l l', d.load = .ok l → { d with links }.load = .ok l' → l.Same l' := by
  refine ⟨⟨?_, ?_⟩, fun l l' hl hl' => ?_⟩
  · rintro ⟨l, hl⟩
    obtain ⟨l', hl', _⟩ := load_of_perm hperm hl
    exact ⟨l', hl'⟩
  · rintro ⟨l', hl'⟩
    obtain ⟨l, hl, _⟩ := load_of_perm (d := { d with links }) hperm.symm hl'
    exact ⟨l, hl⟩
  · obtain ⟨l'', hl'', hsame⟩ := load_of_perm hperm hl
    cases hl'.symm.trans hl''
    exact hsame

/-- A list that holds itself, and a list where a lamp is asked for. -/
def misfits : Description where
  functions := []
  types := [⟨"Lamp", [⟨"On", []⟩]⟩]
  nodes := [("loop", .list 1), ("on", .ctor "On"), ("pick", .caseOf "Lamp" []), ("xs", .list 1)]
  links := [⟨"loop", "loop", 0⟩, ⟨"xs", "pick", 0⟩, ⟨"on", "xs", 0⟩]

theorem load_links_perm_misfits :
    ∃ l l', misfits.load = .ok l ∧
      { misfits with links := misfits.links.reverse }.load = .ok l' ∧ l.errors.length = 2 ∧
        l.Same l' := by
  have herrors : misfits.load.toOption.map (fun l => l.errors.length) = some 2 := by
    unfold load misfits Loading.types Loading.variants attempt Workspace.defineType
    cbv
  obtain ⟨hiff, hsame⟩ := load_links_perm misfits misfits.links.reverse_perm
  cases hl : misfits.load with
  | error e =>
    rw [hl] at herrors
    cases herrors
  | ok l =>
    rw [hl] at herrors
    obtain ⟨l', hl'⟩ := hiff.mp ⟨l, hl⟩
    exact ⟨l, l', rfl, hl', Option.some_inj.mp herrors, hsame l l' hl hl'⟩

end Description
end BlockGraph
