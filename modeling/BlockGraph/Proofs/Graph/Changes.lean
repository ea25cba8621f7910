import BlockGraph.Proofs.Graph.Topology

/-!
# What the changes of a graph do

Each change is described by what `node?`, `socket?` and `Wired` are afterwards,
and keeps the graph well-formed.  The removal of a node is not a composition of
changes that do so, because the node goes before its sockets; it is described as
a whole.
-/

namespace BlockGraph

namespace Links

variable {ls : Links} {s : SocketId} {k : Nat} {l : Link}

theorem mem_numbersAt_iff (h : ls.WellFormed) (hl : (k, l) ∈ ls.entries) :
    k ∈ ls.numbersAt s ↔ l.output = s ∨ l.input = s := by
  rw [numbersAt, List.mem_map]
  constructor
  · rintro ⟨⟨j, l'⟩, hmem, rfl⟩
    rw [List.mem_append, List.mem_filter, List.mem_filter] at hmem
    rcases hmem with ⟨hl', hs⟩ | ⟨hl', hs⟩
    · rw [eq_of_mem_entries h hl hl']
      exact .inl (by simpa using hs)
    · rw [eq_of_mem_entries h hl hl']
      exact .inr (by simp at hs; exact hs.1)
  · intro hs
    refine ⟨(k, l), List.mem_append.mpr ?_, rfl⟩
    by_cases ho : l.output = s
    · exact .inl (List.mem_filter.mpr ⟨hl, by simpa using ho⟩)
    · exact .inr (List.mem_filter.mpr ⟨hl, by simp [ho, hs.resolve_left ho]⟩)

theorem numbersAt_nodup (h : ls.WellFormed) (s : SocketId) : (ls.numbersAt s).Nodup := by
  rw [numbersAt, List.map_append, List.nodup_append]
  refine ⟨?_, ?_, fun j hj k hk hjk => ?_⟩
  · exact h.used_nodup.sublist (List.filter_sublist.map Prod.fst)
  · exact h.used_nodup.sublist (List.filter_sublist.map Prod.fst)
  · obtain ⟨⟨j, l⟩, hl, rfl⟩ := List.mem_map.mp hj
    obtain ⟨⟨k, l'⟩, hl', rfl⟩ := List.mem_map.mp hk
    cases hjk
    rw [List.mem_filter] at hl hl'
    have heq := eq_of_mem_entries h hl.1 hl'.1
    have ho : l.output = s := by simpa using hl.2
    have hno : ¬ l'.output = s := by
      have := hl'.2
      simp at this
      exact this.2
    exact hno (heq ▸ ho)

theorem numbersAt_used : ∀ k ∈ ls.numbersAt s, k ∈ ls.entries.map Prod.fst := by
  intro k hk
  obtain ⟨e, he, rfl⟩ := List.mem_map.mp hk
  rw [List.mem_append, List.mem_filter, List.mem_filter] at he
  exact List.mem_map.mpr ⟨e, he.elim And.left And.left, rfl⟩

theorem removeAll_sublist (h : ls.WellFormed) {ks : List Nat} (hks : ks.Nodup)
    (hused : ∀ k ∈ ks, k ∈ ls.entries.map Prod.fst) :
    (ks.foldl remove ls).newestFirst.Sublist ls.newestFirst := by
  rw [newestFirst, (removeAll_spec h hks hused).2]
  exact List.filter_sublist.map Prod.snd

theorem removeAt_spec (h : ls.WellFormed) (s : SocketId) :
    ((ls.numbersAt s).foldl remove ls).WellFormed ∧
      ((ls.numbersAt s).foldl remove ls).newestFirst.Sublist ls.newestFirst ∧
      ∀ l, l ∈ ((ls.numbersAt s).foldl remove ls).newestFirst ↔
        l ∈ ls.newestFirst ∧ l.output ≠ s ∧ l.input ≠ s := by
  have hnodup := numbersAt_nodup h s
  obtain ⟨hwf, hentries⟩ := removeAll_spec h hnodup numbersAt_used
  refine ⟨hwf, removeAll_sublist h hnodup numbersAt_used, fun l => ?_⟩
  rw [mem_newestFirst, mem_newestFirst, hentries, ← exists_and_right]
  refine exists_congr fun k => ?_
  rw [List.mem_filter, decide_eq_true_iff]
  exact and_congr_right fun hk => by rw [mem_numbersAt_iff h hk, not_or]

end Links

namespace Graph

variable {g g' : Graph} {a b s t i o : SocketId} {m n : NodeId} {role : Role} {node : Node}

/-! ## Links -/

theorem wired_wire : (g.wire o i).Wired a b ↔ (a = o ∧ b = i) ∨ g.Wired a b := by
  rw [Wired, wire, Links.mem_newestFirst_insert, Link.mk.injEq]
  rfl

theorem wire_wellFormed (h : g.WellFormed) {k : Nat} (ho : g.At o m .output)
    (hi : g.At i n (.input k)) (hop : g.peer? o = none) (hip : g.peer? i = none) :
    (g.wire o i).WellFormed := by
  have hofree := (peer?_eq_none_iff h.links).mp hop
  have hifree := (peer?_eq_none_iff h.links).mp hip
  have hends : i ≠ o := by
    rintro rfl
    exact nomatch (ho.unique hi).2
  refine ⟨h.nodes, h.sockets, ⟨Links.insert_wellFormed h.links.numbered _,
    List.nodup_cons.mpr ⟨(hofree i).1, h.links.nodup⟩, fun a b b' hw hw' => ?_,
    fun a a' b hw hw' => ?_, fun a b c hw hw' => ?_⟩, h.place, fun a b hw => ?_, fun a b hw => ?_⟩
  · rcases wired_wire.mp hw with ⟨ha, hb⟩ | hw <;>
      rcases wired_wire.mp hw' with ⟨ha', hb'⟩ | hw'
    · exact hb.trans hb'.symm
    · exact absurd (ha ▸ hw') (hofree b').1
    · exact absurd (ha' ▸ hw) (hofree b).1
    · exact h.links.input_unique a b b' hw hw'
  · rcases wired_wire.mp hw with ⟨ha, hb⟩ | hw <;>
      rcases wired_wire.mp hw' with ⟨ha', hb'⟩ | hw'
    · exact ha.trans ha'.symm
    · exact absurd (hb ▸ hw') (hifree a').2
    · exact absurd (hb' ▸ hw) (hifree a).2
    · exact h.links.output_unique a a' b hw hw'
  · rcases wired_wire.mp hw with ⟨ha, hb⟩ | hw <;>
      rcases wired_wire.mp hw' with ⟨ha', hb'⟩ | hw'
    · exact hends (hb.symm.trans ha')
    · exact absurd (hb ▸ hw') (hifree c).1
    · exact absurd (ha' ▸ hw) (hofree a).2
    · exact h.links.ends_differ a b c hw hw'
  · rcases wired_wire.mp hw with ⟨rfl, rfl⟩ | hw
    · exact ⟨m, ho⟩
    · exact h.wired_output a b hw
  · rcases wired_wire.mp hw with ⟨rfl, rfl⟩ | hw
    · exact ⟨n, k, hi⟩
    · exact h.wired_input a b hw

theorem WellFormed.withLinks (h : g.WellFormed) {ls : Links} (hls : ls.WellFormed)
    (hsub : ls.newestFirst.Sublist g.links.newestFirst) : { g with links := ls }.WellFormed :=
  ⟨h.nodes, h.sockets, h.links.sublist hls hsub, h.place,
    fun a b hw => h.wired_output a b (hsub.subset hw),
    fun a b hw => h.wired_input a b (hsub.subset hw)⟩

theorem unwire?_spec (h : g.WellFormed) (hg : g.unwire? o i = some g') :
    g'.WellFormed ∧ g'.nodes = g.nodes ∧ g'.sockets = g.sockets ∧ g.Wired o i ∧
      ∀ a b, g'.Wired a b ↔ g.Wired a b ∧ ¬ (a = o ∧ b = i) := by
  obtain ⟨k, hk, rfl⟩ := Option.map_eq_some_iff.mp hg
  obtain ⟨⟨k, l⟩, hfind, rfl⟩ := Option.map_eq_some_iff.mp hk
  have hmem := List.mem_of_find?_eq_some hfind
  obtain rfl : l = ⟨o, i⟩ := by simpa using List.find?_some hfind
  have hused : ∀ j ∈ [k], j ∈ g.links.entries.map Prod.fst := fun j hj => by
    rw [List.mem_singleton.mp hj]
    exact List.mem_map.mpr ⟨_, hmem, rfl⟩
  obtain ⟨hlinks, hentries⟩ :=
    Links.removeAll_spec h.links.numbered (List.nodup_singleton k) hused
  have hsub := Links.removeAll_sublist h.links.numbered (List.nodup_singleton k) hused
  refine ⟨h.withLinks hlinks hsub, rfl, rfl, Links.mem_newestFirst.mpr ⟨k, hmem⟩, fun a b => ?_⟩
  rw [Wired, removeLinks, Links.mem_newestFirst, Wired, Links.mem_newestFirst, hentries]
  simp only [List.mem_filter, decide_eq_true_iff]
  constructor
  · rintro ⟨j, hj, hjk⟩
    refine ⟨⟨j, hj⟩, ?_⟩
    rintro ⟨rfl, rfl⟩
    -- Two entries for one link would be two copies of it among the links.
    have hcopies : (j, (⟨a, b⟩ : Link)) = (k, ⟨a, b⟩) :=
      List.inj_on_of_nodup_map h.links.nodup hj hmem rfl
    exact hjk (by simpa using congrArg Prod.fst hcopies)
  · rintro ⟨⟨j, hj⟩, hne⟩
    refine ⟨j, hj, fun hjk => hne ?_⟩
    rw [List.mem_singleton.mp hjk] at hj
    have heq := Links.eq_of_mem_entries h.links.numbered hj hmem
    exact Link.mk.inj heq

/-! ## Sockets -/

theorem wired_removeSocket (h : g.links.Simple) (s : SocketId) :
    (g.removeSocket s).Wired a b ↔ g.Wired a b ∧ a ≠ s ∧ b ≠ s :=
  (Links.removeAt_spec h.numbered s).2.2 ⟨a, b⟩

theorem simple_removeSocket (h : g.links.Simple) (s : SocketId) :
    (g.removeSocket s).links.Simple :=
  h.sublist (Links.removeAt_spec h.numbered s).1 (Links.removeAt_spec h.numbered s).2.1

theorem socket?_removeSocket (g : Graph) (s t : SocketId) :
    (g.removeSocket s).socket? t = if t = s then none else g.socket? t := by
  rw [socket?, removeSocket, Slots.get?_recycle, Slots.get?_erase]
  rfl

theorem at_of_insert {fresh : Socket} (hnew : g.socket? s = none)
    (hsocket : ∀ t, g'.socket? t = if t = s then some fresh else g.socket? t) (t : SocketId)
    (m : NodeId) (role : Role) :
    g'.At t m role ↔ (t = s ∧ m = fresh.node ∧ role = fresh.role) ∨ g.At t m role := by
  rw [At, hsocket]
  by_cases ht : t = s
  · have hold : ¬ g.At t m role := by
      rintro ⟨_, hs, _⟩
      rw [ht, hnew] at hs
      cases hs
    simp [ht, ht ▸ hold, eq_comm]
  · simp [ht, At]

theorem node?_modifyNode (hn : g.node? n = some node) (f : Node → Node) (m : NodeId) :
    (g.modifyNode n f).node? m = if m = n then some (f node) else g.node? m := by
  show (g.nodes.modify n f).get? m = _
  rw [Slots.get?_modify]
  split
  · next hm =>
    rw [hm, show g.nodes.get? n = some node from hn]
    rfl
  · rfl

theorem addInput_spec (h : g.WellFormed) (hn : g.node? n = some node) (ty : Ty) :
    ∃ s g', g.addInput n ty = .ok (s, g') ∧ g'.WellFormed ∧ g.socket? s = none ∧
      g'.links = g.links ∧
      (∀ m, g'.node? m = if m = n then some { node with inputs := node.inputs ++ [s] }
        else g.node? m) ∧
      ∀ t, g'.socket? t = if t = s then some ⟨n, .input node.inputs.length, ty, .unbound⟩
        else g.socket? t := by
  let fresh : Socket := { node := n, role := .input node.inputs.length, ty }
  have hnew : g.socket? (g.sockets.insert fresh).1 = none :=
    Slots.get?_insert_number h.sockets fresh
  let s := (g.sockets.insert fresh).1
  let g' : Graph := { g with sockets := (g.sockets.insert fresh).2 }.modifyNode n
    fun node => { node with inputs := node.inputs ++ [s] }
  have hnode : ∀ m, g'.node? m =
      if m = n then some { node with inputs := node.inputs ++ [s] } else g.node? m :=
    node?_modifyNode hn _
  have hsocket : ∀ t, g'.socket? t = if t = s then some fresh else g.socket? t :=
    fun t => Slots.get?_insert g.sockets fresh t
  have hat : ∀ t m role, g'.At t m role ↔
      (t = s ∧ m = n ∧ role = .input node.inputs.length) ∨ g.At t m role :=
    at_of_insert hnew hsocket
  refine ⟨s, g', by rw [addInput, hn], ⟨Slots.modify_wellFormed h.nodes .., Slots.insert_wellFormed
    h.sockets _, h.links, fun m role t => ?_, fun a b hw => ?_, fun a b hw => ?_⟩, hnew, rfl, hnode,
    hsocket⟩
  · rw [hat, ← h.place]
    by_cases hm : m = n
    · cases role with
      | output => simp [socketAt?, hnode, hm, hn]
      | input k =>
        rcases Nat.lt_trichotomy k node.inputs.length with hk | hk | hk
        · simp [socketAt?, hnode, hm, hn, List.getElem?_append_left hk, Nat.ne_of_lt hk]
        · simp [socketAt?, hnode, hm, hn, hk, eq_comm]
        · have hlong : (node.inputs ++ [s]).length ≤ k := by
            rw [List.length_append]
            exact hk
          simp [socketAt?, hnode, hm, hn, Nat.ne_of_gt hk, List.getElem?_eq_none hlong,
            List.getElem?_eq_none (Nat.le_of_lt hk)]
    · cases role <;> simp [socketAt?, hnode, hm]
  · obtain ⟨m, hm⟩ := h.wired_output a b hw
    exact ⟨m, (hat a m _).mpr (.inr hm)⟩
  · obtain ⟨m, k, hm⟩ := h.wired_input a b hw
    exact ⟨m, k, (hat b m _).mpr (.inr hm)⟩

private theorem getElem?_dropLast_iff {inputs : List SocketId} {k : Nat}
    (hs : inputs.getLast? = some s) (hlast : ∀ j, inputs[j]? = some s → j = inputs.length - 1) :
    inputs.dropLast[k]? = some t ↔ t ≠ s ∧ inputs[k]? = some t := by
  rw [List.getElem?_dropLast]
  constructor
  · intro ht
    split at ht
    · next hk =>
      refine ⟨fun hts => ?_, ht⟩
      rw [hts] at ht
      exact absurd (hlast k ht) (Nat.ne_of_lt hk)
    · cases ht
  · rintro ⟨hts, ht⟩
    obtain ⟨hk, _⟩ := List.getElem?_eq_some_iff.mp ht
    rw [if_pos, ht]
    refine Nat.lt_of_le_of_ne (Nat.le_sub_one_of_lt hk) fun hk' => hts ?_
    rw [hk', ← List.getLast?_eq_getElem?, hs] at ht
    exact (Option.some_inj.mp ht).symm

theorem popInput_spec (h : g.WellFormed) (hn : g.node? n = some node)
    (hs : node.inputs.getLast? = some s) :
    ∃ g', g.popInput n = .ok (some (s, g.peer? s), g') ∧ g'.WellFormed ∧
      (∀ m, g'.node? m = if m = n then some { node with inputs := node.inputs.dropLast }
        else g.node? m) ∧
      (∀ t, g'.socket? t = if t = s then none else g.socket? t) ∧
      ∀ a b, g'.Wired a b ↔ g.Wired a b ∧ a ≠ s ∧ b ≠ s := by
  let shortened := g.modifyNode n fun node => { node with inputs := node.inputs.dropLast }
  let g' := shortened.removeSocket s
  have hnode : ∀ m, g'.node? m =
      if m = n then some { node with inputs := node.inputs.dropLast } else g.node? m :=
    node?_modifyNode hn _
  have hsocket : ∀ t, g'.socket? t = if t = s then none else g.socket? t :=
    socket?_removeSocket shortened s
  have hat : ∀ t m role, g'.At t m role ↔ t ≠ s ∧ g.At t m role := by
    intro t m role
    rw [At, hsocket]
    by_cases ht : t = s <;> simp [ht, At]
  have hplace : g.At s n (.input (node.inputs.length - 1)) :=
    (At.input_eq h hn).mpr (by rw [← List.getLast?_eq_getElem?, hs])
  have hs' : ∃ socket, g.sockets.get? s = some socket := hplace.imp fun _ hsocket => hsocket.1
  refine ⟨g', by rw [popInput, hn]; simp only [hs]; rfl, ⟨Slots.modify_wellFormed h.nodes ..,
    Slots.recycle_wellFormed h.sockets hs'.choose_spec, simple_removeSocket h.links s,
    fun m role t => ?_, fun a b hw => ?_, fun a b hw => ?_⟩, hnode, hsocket,
    fun a b => wired_removeSocket h.links s⟩
  · rw [hat, ← h.place]
    by_cases hm : m = n
    · cases role with
      | output =>
        have hne : node.output ≠ s := by
          intro he
          cases (hplace.unique ((At.output_eq h hn).mpr he.symm)).2
        simp only [socketAt?, hnode, hm, hn, if_pos, Option.map_some, Option.some_inj]
        exact ⟨fun ht => ⟨ht ▸ hne, ht⟩, And.right⟩
      | input k =>
        simp only [socketAt?, hnode, hm, hn, if_pos, Option.bind_some]
        refine getElem?_dropLast_iff hs fun j hj => ?_
        cases (hplace.unique ((At.input_eq h hn).mpr hj)).2
        rfl
    · simp only [ne_eq]
      have hsame : g'.socketAt? m role = g.socketAt? m role := by
        cases role <;> simp [socketAt?, hnode, hm]
      rw [hsame]
      refine ⟨fun ht => ⟨fun hts => hm ?_, ht⟩, And.right⟩
      exact (((h.place m role t).mp ht).unique (hts ▸ hplace)).1
  · obtain ⟨hw, ha, _⟩ := (wired_removeSocket (g := g) h.links s).mp hw
    obtain ⟨m, hm⟩ := h.wired_output a b hw
    exact ⟨m, (hat a m _).mpr ⟨ha, hm⟩⟩
  · obtain ⟨hw, _, hb⟩ := (wired_removeSocket (g := g) h.links s).mp hw
    obtain ⟨m, k, hm⟩ := h.wired_input a b hw
    exact ⟨m, k, (hat b m _).mpr ⟨hb, hm⟩⟩

/-! ## Nodes -/

theorem insertNode_spec (h : g.WellFormed) (block : Block) (ty : Ty) :
    ∃ n s g', g.insertNode block ty = (n, g') ∧ g'.WellFormed ∧ g.node? n = none ∧
      g.socket? s = none ∧ g'.links = g.links ∧
      (∀ m, g'.node? m = if m = n then some { block, output := s } else g.node? m) ∧
      ∀ t, g'.socket? t = if t = s then some ⟨n, .output, ty, .unbound⟩ else g.socket? t := by
  let n := g.nodes.numbers.take.1
  let socket : Socket := { node := n, role := .output, ty }
  let s := (g.sockets.insert socket).1
  let node : Node := { block, output := s }
  let g' : Graph :=
    { g with nodes := (g.nodes.insert node).2, sockets := (g.sockets.insert socket).2 }
  have hnew : g.node? n = none := Slots.get?_insert_number h.nodes node
  have hnew' : g.socket? s = none := Slots.get?_insert_number h.sockets socket
  have hnode : ∀ m, g'.node? m = if m = n then some node else g.node? m :=
    fun m => Slots.get?_insert g.nodes node m
  have hsocket : ∀ t, g'.socket? t = if t = s then some socket else g.socket? t :=
    fun t => Slots.get?_insert g.sockets socket t
  have hat : ∀ t m role, g'.At t m role ↔
      (t = s ∧ m = n ∧ role = .output) ∨ g.At t m role :=
    at_of_insert hnew' hsocket
  refine ⟨n, s, g', rfl, ⟨Slots.insert_wellFormed h.nodes _, Slots.insert_wellFormed h.sockets _,
    h.links, fun m role t => ?_, fun a b hw => ?_, fun a b hw => ?_⟩, hnew, hnew', rfl, hnode,
    hsocket⟩
  · rw [hat, ← h.place]
    by_cases hm : m = n
    · cases role <;> simp [socketAt?, hnode, hm, hnew, node, eq_comm]
    · cases role <;> simp [socketAt?, hnode, hm]
  · obtain ⟨m, hm⟩ := h.wired_output a b hw
    exact ⟨m, (hat a m _).mpr (.inr hm)⟩
  · obtain ⟨m, k, hm⟩ := h.wired_input a b hw
    exact ⟨m, k, (hat b m _).mpr (.inr hm)⟩

/-- Sockets go with their links, and what was linked to them from outside is listed. -/
theorem removeSockets_spec (h : g.links.Simple) (hs : g.sockets.WellFormed) {list : List SocketId}
    (hnodup : list.Nodup) (hlist : ∀ s ∈ list, ∃ x, g.socket? s = some x) :
    (g.removeSockets list).2.links.Simple ∧ (g.removeSockets list).2.sockets.WellFormed ∧
      (g.removeSockets list).2.nodes = g.nodes ∧
      (∀ t, (g.removeSockets list).2.socket? t = if t ∈ list then none else g.socket? t) ∧
      (∀ a b, (g.removeSockets list).2.Wired a b ↔ g.Wired a b ∧ a ∉ list ∧ b ∉ list) ∧
      ∀ s ∈ list, ∀ t ∉ list, g.peer? s = some t → t ∈ (g.removeSockets list).1 := by
  induction list generalizing g with
  | nil => exact ⟨h, hs, rfl, fun t => by simp [removeSockets], fun a b => by simp [removeSockets],
      fun s hs => absurd hs List.not_mem_nil⟩
  | cons x rest ih =>
    obtain ⟨hx, hrest⟩ := List.nodup_cons.mp hnodup
    obtain ⟨_, hfound⟩ := hlist x List.mem_cons_self
    have hlive : ∀ s ∈ rest, ∃ y, (g.removeSocket x).socket? s = some y := fun s hs => by
      have hsx : s ≠ x := fun hsx => hx (hsx ▸ hs)
      rw [socket?_removeSocket, if_neg hsx]
      exact hlist s (List.mem_cons_of_mem x hs)
    obtain ⟨hsimple, hsockets, hnodes, hsocket, hwired, hpeers⟩ :=
      ih (simple_removeSocket h x) (Slots.recycle_wellFormed hs hfound) hrest hlive
    refine ⟨hsimple, hsockets, hnodes, fun t => ?_, fun a b => ?_, fun s hs t ht hp => ?_⟩
    · rw [removeSockets, hsocket, socket?_removeSocket]
      by_cases htx : t = x <;> simp [htx]
    · rw [removeSockets, hwired, wired_removeSocket h]
      simp only [List.mem_cons, not_or]
      tauto
    · rw [removeSockets]
      rw [List.mem_cons, not_or] at ht
      refine List.mem_append.mpr ?_
      rcases List.mem_cons.mp hs with rfl | hs
      · exact .inl (by rw [hp]; exact List.mem_singleton_self t)
      · refine .inr (hpeers s hs t ht.2 ?_)
        have hsx : s ≠ x := fun hsx => hx (hsx ▸ hs)
        rw [peer?_eq_some_iff (simple_removeSocket h x), wired_removeSocket h, wired_removeSocket h]
        rcases (peer?_eq_some_iff h).mp hp with hw | hw
        · exact .inl ⟨hw, hsx, ht.1⟩
        · exact .inr ⟨hw, ht.1, hsx⟩

theorem removeNode_spec (h : g.WellFormed) (hn : g.node? n = some node) :
    ∃ peers g', g.removeNode n = .ok ((node, peers), g') ∧ g'.WellFormed ∧
      (∀ m, g'.node? m = if m = n then none else g.node? m) ∧
      (∀ t, g'.socket? t = if g.owner? t = some n then none else g.socket? t) ∧
      (∀ a b, g'.Wired a b ↔ g.Wired a b ∧ g.owner? a ≠ some n ∧ g.owner? b ≠ some n) ∧
      ∀ s t, g.owner? s = some n → g.owner? t ≠ some n → g.peer? s = some t → t ∈ peers := by
  let base : Graph := { g with nodes := g.nodes.erase n }
  have hmem : ∀ s, s ∈ node.sockets ↔ g.owner? s = some n := fun s => mem_sockets_iff h hn
  obtain ⟨hsimple, hsockets, hnodes, hsocket, hwired, hpeers⟩ :=
    removeSockets_spec (g := base) h.links h.sockets (sockets_nodup h hn) fun s hs => by
      obtain ⟨role, socket, hsocket, _⟩ := owner?_eq_some_iff.mp ((hmem s).mp hs)
      exact ⟨socket, hsocket⟩
  simp only [hmem] at hsocket hwired hpeers
  let g' := (base.removeSockets node.sockets).2
  have hnode : ∀ m, g'.node? m = if m = n then none else g.node? m := fun m => by
    rw [node?, hnodes]
    exact Slots.get?_erase ..
  have hat : ∀ t m role, g'.At t m role ↔ m ≠ n ∧ g.At t m role := by
    intro t m role
    rw [At, hsocket]
    constructor
    · rintro ⟨socket, hs, rfl, rfl⟩
      split at hs
      · cases hs
      · next hne =>
        refine ⟨fun hm => hne ?_, socket, hs, rfl, rfl⟩
        exact owner?_eq_some_iff.mpr ⟨socket.role, socket, hs, hm, rfl⟩
    · rintro ⟨hm, hold⟩
      rw [if_neg fun hne => ?_]
      · exact hold
      · obtain ⟨role', hrole⟩ := owner?_eq_some_iff.mp hne
        exact hm (hold.unique hrole).1
  have hsurvives : ∀ {t m role}, g.At t m role → g.owner? t ≠ some n → g'.At t m role := by
    intro t m role hold hne
    refine (hat t m role).mpr ⟨fun hm => hne ?_, hold⟩
    exact owner?_eq_some_iff.mpr ⟨role, hm ▸ hold⟩
  refine ⟨(base.removeSockets node.sockets).1, g', by rw [removeNode, hn], ⟨?_, hsockets, hsimple,
    fun m role t => ?_, fun a b hw => ?_, fun a b hw => ?_⟩, hnode, hsocket, hwired,
    fun s t hs ht hp => hpeers s hs t ht hp⟩
  · rw [hnodes]
    exact Slots.erase_wellFormed h.nodes n
  · rw [hat, ← h.place]
    by_cases hm : m = n
    · cases role <;> simp [socketAt?, hnode, hm]
    · cases role <;> simp [socketAt?, hnode, hm]
  · obtain ⟨hw, ha, _⟩ := (hwired a b).mp hw
    obtain ⟨m, hm⟩ := h.wired_output a b hw
    exact ⟨m, hsurvives hm ha⟩
  · obtain ⟨hw, _, hb⟩ := (hwired a b).mp hw
    obtain ⟨m, k, hm⟩ := h.wired_input a b hw
    exact ⟨m, k, hsurvives hm hb⟩

/-! ## Types and states -/

/-- Changes of sockets one after another, each with a socket of its own, change every one of them
once. -/
theorem socket?_foldl_modifySocket {α : Type} (key : α → SocketId) (f : α → Socket → Socket)
    (g : Graph) (list : List α) :
    (∀ t, t ∉ list.map key →
      (list.foldl (fun g x => g.modifySocket (key x) (f x)) g).socket? t = g.socket? t) ∧
    ((list.map key).Nodup → ∀ x ∈ list,
      (list.foldl (fun g x => g.modifySocket (key x) (f x)) g).socket? (key x) =
        (g.socket? (key x)).map (f x)) := by
  have hmodify : ∀ (g : Graph) (x : α) (t : SocketId), (g.modifySocket (key x) (f x)).socket? t =
      if t = key x then (g.socket? t).map (f x) else g.socket? t :=
    fun g x t => Slots.get?_modify ..
  induction list generalizing g with
  | nil => exact ⟨fun t _ => rfl, fun _ x hx => absurd hx List.not_mem_nil⟩
  | cons y rest ih =>
    obtain ⟨hother, hown⟩ := ih (g.modifySocket (key y) (f y))
    refine ⟨fun t ht => ?_, fun hnodup x hx => ?_⟩
    · rw [List.map_cons, List.mem_cons, not_or] at ht
      rw [List.foldl_cons, hother t ht.2, hmodify, if_neg ht.1]
    · obtain ⟨hy, hrest⟩ := List.nodup_cons.mp hnodup
      rw [List.foldl_cons]
      rcases List.mem_cons.mp hx with rfl | hx
      · rw [hother _ hy, hmodify, if_pos rfl]
      · have hne : key x ≠ key y := fun he => hy (he ▸ List.mem_map_of_mem hx)
        rw [hown hrest x hx, hmodify, if_neg hne]

theorem outline_foldl_modifySocket {α : Type} (key : α → SocketId) (f : α → Socket → Socket)
    (hf : ∀ x socket, (f x socket).bare = socket.bare) (g : Graph) (list : List α) :
    (list.foldl (fun g x => g.modifySocket (key x) (f x)) g).outline = g.outline ∧
      (list.foldl (fun g x => g.modifySocket (key x) (f x)) g).nodes = g.nodes := by
  induction list generalizing g with
  | nil => exact ⟨rfl, rfl⟩
  | cons y rest ih =>
    obtain ⟨houtline, hnodes⟩ := ih (g.modifySocket (key y) (f y))
    exact ⟨houtline.trans (outline_modifySocket g _ (hf y)), hnodes⟩

end Graph
end BlockGraph
