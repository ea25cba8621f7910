import BlockGraph.Proofs.Graph.Topology

/-!
# Graphs of one outline grow alike

The outline of a graph is what is left of it without blocks, types and states.  It
decides which numbers a new node and its sockets get, and where they have their place.  So two
graphs with one outline have one outline again after a node or an input has been added to both,
whatever it stands for and whatever its type is.
-/

namespace BlockGraph

namespace Slots

variable {α : Type}

theorem map_put (f : α → α) (k : Nat) (a : α) (entries : List (Nat × α)) :
    (put k a entries).map (fun e => (e.1, f e.2)) =
      put k (f a) (entries.map fun e => (e.1, f e.2)) := by
  induction entries with
  | nil => rfl
  | cons e rest ih =>
    rw [put, List.map_cons, put]
    split
    · rfl
    split
    · rfl
    · rw [List.map_cons, ih]

/-- A value gets the same number whatever the values are. -/
theorem map_insert (s : Slots α) (f : α → α) (a : α) :
    ((s.insert a).1, (s.insert a).2.map f) = (s.map f).insert (f a) := by
  rw [insert, insert, map, map_put]
  rfl

theorem map_modify_comm (s : Slots α) (k : Nat) {f e : α → α} (h : ∀ a, e (f a) = f (e a)) :
    (s.modify k f).map e = (s.map e).modify k f := by
  rw [map, map, modify, modify, List.map_map, List.map_map]
  congr 1
  refine List.map_congr_left fun d _ => ?_
  simp only [Function.comp_apply]
  split
  · rw [h]
  · rfl

end Slots

namespace Graph

variable {g g' : Graph} {n : NodeId}

theorem insertNode_outline (g : Graph) (block : Block) (ty : Ty) :
    ((g.insertNode block ty).1, (g.insertNode block ty).2.outline) =
      g.outline.insertNode (.list 0) (.var 0) := by
  have hsocket := Slots.map_insert g.sockets Socket.bare
    { node := g.nodes.numbers.take.1, role := .output, ty }
  have hnode := Slots.map_insert g.nodes Node.bare
    { block, output := (g.sockets.insert
      { node := g.nodes.numbers.take.1, role := .output, ty }).1 }
  obtain ⟨_, hsockets⟩ := Prod.mk.inj hsocket
  obtain ⟨_, hnodes⟩ := Prod.mk.inj hnode
  simp only [insertNode, outline, hnodes, hsockets]
  rfl

theorem insertNode_congr (h : g'.outline = g.outline) (block block' : Block) (ty ty' : Ty) :
    (g'.insertNode block' ty').1 = (g.insertNode block ty).1 ∧
      (g'.insertNode block' ty').2.outline = (g.insertNode block ty).2.outline := by
  refine Prod.mk.inj ?_
  rw [insertNode_outline, h, ← insertNode_outline g block ty]

theorem addInput_outline (g : Graph) (n : NodeId) (ty : Ty) :
    (g.addInput n ty).map (fun x => (x.1, x.2.outline)) = g.outline.addInput n (.var 0) := by
  rw [addInput, addInput, node?_outline]
  cases g.node? n with
  | none => rfl
  | some node =>
    obtain ⟨_, hsockets⟩ := Prod.mk.inj (Slots.map_insert g.sockets Socket.bare
      { node := n, role := .input node.inputs.length, ty })
    have hnodes (s : SocketId) := Slots.map_modify_comm g.nodes n
      (f := fun node => { node with inputs := node.inputs ++ [s] }) (e := Node.bare) fun _ => rfl
    simp only [Except.map, outline, modifyNode, hsockets, hnodes]
    rfl

theorem addInput_congr (h : g'.outline = g.outline) (n : NodeId) (ty ty' : Ty) :
    (g'.addInput n ty').map (fun x => (x.1, x.2.outline)) =
      (g.addInput n ty).map (fun x => (x.1, x.2.outline)) := by
  rw [addInput_outline, h, addInput_outline]

theorem addInputs_congr (h : g'.outline = g.outline) (n : NodeId) (count : Nat) (s s' : Supply) :
    (g'.addInputs n count s').1.outline = (g.addInputs n count s).1.outline := by
  induction count generalizing g g' s s' with
  | zero => exact h
  | succ count ih =>
    have hadd := addInput_congr h n s.fresh.1 s'.fresh.1
    simp only [addInputs]
    cases hadded : g.addInput n s.fresh.1 with
    | error d =>
      cases hadded' : g'.addInput n s'.fresh.1 with
      | error d' => exact h
      | ok x' =>
        rw [hadded, hadded'] at hadd
        cases hadd
    | ok x =>
      cases hadded' : g'.addInput n s'.fresh.1 with
      | error d' =>
        rw [hadded, hadded'] at hadd
        cases hadd
      | ok x' =>
        rw [hadded, hadded'] at hadd
        exact ih (congrArg Prod.snd (Except.ok.inj hadd)) _ _

end Graph
end BlockGraph
