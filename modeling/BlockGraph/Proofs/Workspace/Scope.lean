import BlockGraph.Proofs.Graph.Changes
import BlockGraph.Proofs.Graph.Component
import BlockGraph.Proofs.Workspace.Typing

/-!
# Where pattern variables are bound

The walk downstream from a pattern variable stays among the nodes that hang
together with it, so its outcome depends on those nodes alone.  A link that is
pending is followed as if it had been made, and a new link at a free output does
not change where a variable is bound that was bound before.
-/

namespace BlockGraph.Workspace

variable {g g' : Graph} {pending pending' : Option Link} {name : String} {o i : SocketId}
  {seen : List SocketId} {m n : NodeId} {site : BindingSite}

/-- The node that an output feeds, with its number and the place of the input. -/
def consumerNode? (g : Graph) (pending : Option Link) (output : SocketId) :
    Option (NodeId × Role × Node) :=
  ((consumer? g pending output).bind g.socket?).bind fun socket =>
    (g.node? socket.node).map fun node => (socket.node, socket.role, node)

theorem follow?_eq (g : Graph) (pending : Option Link) (name : String) (output : SocketId)
    (seen : List SocketId) :
    follow? g pending name output seen =
      if output ∈ g.sockets.keys ∧ output ∉ seen then
        match consumerNode? g pending output with
        | none => none
        | some (n, role, node) =>
          match siteAt? n node.block role name with
          | some site => some site
          | none => follow? g pending name node.output (output :: seen)
      else none := by
  rw [follow?]
  split
  · rw [consumerNode?]
    cases consumer? g pending output with
    | none => rfl
    | some input =>
      rw [Option.bind_some]
      simp only
      cases g.socket? input with
      | none => rfl
      | some socket =>
        rw [Option.bind_some]
        simp only
        cases g.node? socket.node with
        | none => rfl
        | some node => rfl
  · rfl

/-- What a walk sees of a node. -/
def waypoint (node : Node) : Block × SocketId :=
  (node.block, node.output)

/-- What a walk sees of the node that an output feeds. -/
def consumerWaypoint? (g : Graph) (pending : Option Link) (output : SocketId) :
    Option (NodeId × Role × Block × SocketId) :=
  (consumerNode? g pending output).map fun (n, role, node) => (n, role, waypoint node)

theorem follow?_congr {P : SocketId → Prop}
    (hkeys : ∀ o, P o → (o ∈ g'.sockets.keys ↔ o ∈ g.sockets.keys))
    (hnext : ∀ o, P o → consumerWaypoint? g' pending' o = consumerWaypoint? g pending o)
    (hstep : ∀ o n role node, P o → consumerNode? g pending o = some (n, role, node) →
      P node.output) (ho : P o) :
    follow? g' pending' name o seen = follow? g pending name o seen := by
  induction hk : (Search.unseen g.sockets.keys seen).length using Nat.strongRecOn
    generalizing o seen with
  | ind k ih =>
    rw [follow?_eq, follow?_eq]
    simp only [hkeys o ho]
    split
    · next hlive =>
      have hview := hnext o ho
      cases hc : consumerNode? g pending o with
      | none =>
        rw [consumerWaypoint?, consumerWaypoint?, hc, Option.map_none,
          Option.map_eq_none_iff] at hview
        rw [hview]
      | some next =>
        obtain ⟨n, role, node⟩ := next
        rw [consumerWaypoint?, consumerWaypoint?, hc, Option.map_some] at hview
        obtain ⟨⟨n', role', node'⟩, hc', heq⟩ := Option.map_eq_some_iff.mp hview
        simp only [waypoint, Prod.mk.injEq] at heq
        obtain ⟨rfl, rfl, hblock, houtput⟩ := heq
        simp only [hc', hblock, houtput]
        split
        · rfl
        · exact ih _ (hk ▸ Search.length_unseen_cons_lt hlive.1 hlive.2)
            (hstep o n' role' node ho hc) rfl
    · rfl

theorem bindingSite?_congr {P : SocketId → Prop}
    (hnode : (g'.node? n).map waypoint = (g.node? n).map waypoint)
    (hkeys : ∀ o, P o → (o ∈ g'.sockets.keys ↔ o ∈ g.sockets.keys))
    (hnext : ∀ o, P o → consumerWaypoint? g' pending' o = consumerWaypoint? g pending o)
    (hstep : ∀ o n role node, P o → consumerNode? g pending o = some (n, role, node) →
      P node.output) (hn : ∀ node, g.node? n = some node → P node.output) :
    bindingSite? g' pending' n = bindingSite? g pending n := by
  rw [bindingSite?, bindingSite?]
  cases hg : g.node? n with
  | none =>
    rw [hg, Option.map_none, Option.map_eq_none_iff] at hnode
    rw [hnode]
  | some node =>
    rw [hg, Option.map_some] at hnode
    obtain ⟨node', hg', heq⟩ := Option.map_eq_some_iff.mp hnode
    obtain ⟨hblock, houtput⟩ := Prod.mk.inj heq
    simp only [hg', hblock, houtput]
    split
    · exact follow?_congr hkeys hnext hstep (hn node hg)
    · rfl

theorem mem_sockets_keys : o ∈ g.sockets.keys ↔ ∃ m, g.owner? o = some m := by
  rw [Slots.mem_keys_iff]
  constructor
  · rintro ⟨socket, hs⟩
    exact ⟨socket.node, Graph.owner?_of_socket? hs⟩
  · rintro ⟨m, hm⟩
    obtain ⟨socket, hs, _⟩ := Option.map_eq_some_iff.mp hm
    exact ⟨socket, hs⟩

/-- Signatures, types and states do not matter. -/
theorem bindingSite?_of_outline
    (hblock : ∀ n, (g'.node? n).map Node.block = (g.node? n).map Node.block)
    (h : g'.outline = g.outline) (pending : Option Link) (n : NodeId) :
    bindingSite? g' pending n = bindingSite? g pending n := by
  have hnode : ∀ n, (g'.node? n).map waypoint = (g.node? n).map waypoint := by
    intro n
    have hblock := hblock n
    cases hn : g.node? n with
    | none =>
      rw [hn, Option.map_none, Option.map_eq_none_iff] at hblock
      rw [hblock]
    | some node =>
      obtain ⟨node', hn', hbare⟩ := Graph.node?_congr h hn
      rw [hn, hn', Option.map_some, Option.map_some, Option.some.injEq] at hblock
      have houtput : node'.bare.output = node.bare.output := congrArg Node.output hbare
      rw [hn', Option.map_some, Option.map_some, waypoint, waypoint, hblock]
      exact congrArg (fun output => some (node.block, output)) houtput
  refine bindingSite?_congr (P := fun _ => True) (hnode n) (fun o _ => ?_) (fun o _ => ?_)
    (fun _ _ _ _ _ _ => trivial) fun _ _ => trivial
  · rw [mem_sockets_keys, mem_sockets_keys]
    exact exists_congr fun m => by rw [Graph.owner?_congr h]
  · have hconsumer : consumer? g' pending o = consumer? g pending o := by
      cases pending <;> simp only [consumer?, Graph.peer?_eq_of_outline h]
    rw [consumerWaypoint?, consumerWaypoint?, consumerNode?, consumerNode?, hconsumer]
    cases consumer? g pending o with
    | none => rfl
    | some input =>
      have hbare : (g'.socket? input).map Socket.bare = (g.socket? input).map Socket.bare := by
        rw [← Graph.socket?_outline, h, Graph.socket?_outline]
      rw [Option.bind_some, Option.bind_some]
      cases hs : g.socket? input <;> cases hs' : g'.socket? input <;> rw [hs, hs'] at hbare
      case none.none => rfl
      case some.some socket socket' =>
        obtain ⟨hsame, hrole⟩ : socket'.node = socket.node ∧ socket'.role = socket.role := by
          simpa [Socket.bare] using hbare
        have hfed := congrArg (Option.map fun view => (socket.node, socket.role, view))
          (hnode socket.node)
        rw [Option.map_map, Option.map_map] at hfed
        rw [Option.bind_some, Option.bind_some, hsame, hrole, Option.map_map, Option.map_map]
        exact hfed
      all_goals cases hbare

theorem consumerNode?_none (o : SocketId) (n : NodeId) (role : Role) (node : Node) :
    consumerNode? g none o = some (n, role, node) ↔
      ∃ i, g.peer? o = some i ∧ g.At i n role ∧ g.node? n = some node := by
  rw [consumerNode?, consumer?]
  constructor
  · intro h
    obtain ⟨socket, hs, h⟩ := Option.bind_eq_some_iff.mp h
    obtain ⟨i, hi, hs⟩ := Option.bind_eq_some_iff.mp hs
    obtain ⟨node', hnode, h⟩ := Option.map_eq_some_iff.mp h
    cases h
    exact ⟨i, hi, ⟨socket, hs, rfl, rfl⟩, hnode⟩
  · rintro ⟨i, hi, ⟨socket, hs, rfl, rfl⟩, hnode⟩
    simp [hi, hs, hnode]

theorem consumerNode?_linked (h : g.WellFormed) (ho : g.owner? o = some m) {role : Role}
    {node : Node} (hc : consumerNode? g none o = some (n, role, node)) : g.Linked m n := by
  obtain ⟨i, hp, hi, _⟩ := (consumerNode?_none o n role node).mp hc
  exact (Graph.linked_iff_peer h).mpr ⟨o, i, ho, hp, Graph.owner?_eq_some_iff.mpr ⟨role, hi⟩⟩

/-- Only the nodes that hang together with a pattern variable matter. -/
theorem bindingSite?_of_sameAt (h : g.WellFormed) (h' : g'.WellFormed)
    (hsame : ∀ m, g.Connected n m → Graph.SameAt g g' m) :
    bindingSite? g' none n = bindingSite? g none n := by
  have hnode := fun m hm => (hsame m hm).node
  refine bindingSite?_congr (P := fun o => ∃ m, g.owner? o = some m ∧ g.Connected n m)
    (congrArg _ (hnode n (.refl g n))) ?_ ?_ ?_ ?_
  · rintro o ⟨m, ho, hm⟩
    rw [mem_sockets_keys, mem_sockets_keys]
    exact ⟨fun _ => ⟨m, ho⟩, fun _ => ⟨m, ((hsame m hm).owner h h').mpr ho⟩⟩
  · rintro o ⟨m, ho, hm⟩
    refine congrArg _ (Option.ext fun ⟨c, role, node⟩ => ?_)
    rw [consumerNode?_none, consumerNode?_none, (hsame m hm).peer o ho]
    refine exists_congr fun i => and_congr_right fun hp => ?_
    -- The owner of the input hangs together with the node, so it is the same in both graphs.
    obtain ⟨c', hc'⟩ := Graph.peer?_owner h hp
    have hlinked := (Graph.linked_iff_peer h).mpr ⟨o, i, ho, hp, hc'⟩
    have hcc := hm.tail hlinked
    have hat : g'.At i c role ↔ g.At i c role := by
      rw [Graph.At, Graph.At, (hsame c' hcc).socket i hc']
    rw [hat]
    refine and_congr_right fun hi => ?_
    have hcc' := Graph.owner?_eq_some_iff.mpr ⟨role, hi⟩
    rw [hc'] at hcc'
    cases hcc'
    rw [hnode c hcc]
  · rintro o c role node ⟨m, ho, hm⟩ hc
    obtain ⟨_, _, _, hcnode⟩ := (consumerNode?_none o c role node).mp hc
    exact ⟨c, Graph.owner?_output h hcnode, hm.tail (consumerNode?_linked h ho hc)⟩
  · exact fun node hn => ⟨n, Graph.owner?_output h hn, .refl g n⟩

theorem bindingSite?_connected (h : g.WellFormed) (hsite : bindingSite? g none n = some site) :
    ∃ node binders, g.Connected n site.node ∧ g.node? site.node = some node ∧
      node.block = .caseOf site.type binders := by
  have hfollow : ∀ k o seen m name, (Search.unseen g.sockets.keys seen).length = k →
      g.owner? o = some m → g.Connected n m → follow? g none name o seen = some site →
      ∃ node binders, g.Connected n site.node ∧ g.node? site.node = some node ∧
        node.block = .caseOf site.type binders := by
    intro k
    induction k using Nat.strongRecOn with
    | ind k ih =>
      intro o seen m name hk ho hm hfollow
      rw [follow?_eq] at hfollow
      split at hfollow
      · next hlive =>
        split at hfollow
        · cases hfollow
        · next c role node hc =>
          have hcc := hm.tail (consumerNode?_linked h ho hc)
          obtain ⟨_, _, _, hcnode⟩ := (consumerNode?_none o c role node).mp hc
          split at hfollow
          · next site' hat =>
            cases hfollow
            unfold siteAt? at hat
            split at hat
            · next type binders branch hblock _ =>
              obtain ⟨field, _, rfl⟩ := Option.map_eq_some_iff.mp hat
              exact ⟨node, binders, hcc, hcnode, hblock⟩
            · cases hat
          · exact ih _ (hk ▸ Search.length_unseen_cons_lt hlive.1 hlive.2) node.output (o :: seen) c
              name rfl (Graph.owner?_output h hcnode) hcc hfollow
      · cases hfollow
  cases hn : g.node? n with
  | none => simp [bindingSite?, hn] at hsite
  | some node =>
    obtain ⟨name, _, hwalk⟩ := bindingSite?_block hn hsite
    exact hfollow _ node.output [] n name rfl (Graph.owner?_output h hn) (.refl g n) hwalk

/-! ## Links that are pending -/

theorem consumer?_wire (h : g.WellFormed) (hwire : (g.wire o i).WellFormed) {x : SocketId}
    (hx : g.At x m .output) :
    consumer? (g.wire o i) none x = consumer? g (some ⟨o, i⟩) x := by
  rw [consumer?, consumer?]
  split
  · next hox =>
    exact (Graph.peer?_eq_some_iff hwire.links).mpr
      (.inl (Graph.wired_wire.mpr (.inl ⟨hox.symm, rfl⟩)))
  · next hox =>
    have hxi : ∀ t, ¬ (t = o ∧ x = i) := by
      rintro t ⟨rfl, rfl⟩
      have hw : (g.wire t x).Wired t x := Graph.wired_wire.mpr (.inl ⟨rfl, rfl⟩)
      exact Graph.not_wired_output hwire hx hw
    refine Graph.peer?_congr h.links hwire.links fun t => ?_
    rw [Graph.wired_wire, Graph.wired_wire]
    have hne : ¬ (x = o ∧ t = i) := fun ⟨hxo, _⟩ => hox hxo.symm
    simp only [hne, hxi t, false_or]

/-- A pending link is followed as the link that it will be. -/
theorem bindingSite?_wire (h : g.WellFormed) (hwire : (g.wire o i).WellFormed) (n : NodeId) :
    bindingSite? (g.wire o i) none n = bindingSite? g (some ⟨o, i⟩) n := by
  refine bindingSite?_congr (P := fun x => ∃ m, g.At x m .output) rfl (fun _ _ => Iff.rfl) ?_ ?_ ?_
  · rintro x ⟨m, hx⟩
    rw [consumerWaypoint?, consumerWaypoint?, consumerNode?, consumerNode?,
      consumer?_wire h hwire hx]
    rfl
  · rintro x c role node ⟨m, hx⟩ hc
    obtain ⟨socket, _, hmap⟩ := Option.bind_eq_some_iff.mp hc
    obtain ⟨node', hnode, heq⟩ := Option.map_eq_some_iff.mp hmap
    cases heq
    exact ⟨socket.node, (Graph.At.output_eq h hnode).mpr rfl⟩
  · exact fun node hn => ⟨n, (Graph.At.output_eq h hn).mpr rfl⟩

/-- A link from a free output does not change where a variable is bound. -/
theorem bindingSite?_pending (ho : g.peer? o = none) (hsite : bindingSite? g none n = some site) :
    bindingSite? g (some ⟨o, i⟩) n = some site := by
  have hfollow : ∀ k x seen name, (Search.unseen g.sockets.keys seen).length = k →
      follow? g none name x seen = some site → follow? g (some ⟨o, i⟩) name x seen = some site := by
    intro k
    induction k using Nat.strongRecOn with
    | ind k ih =>
      intro x seen name hk hfollow
      by_cases hox : o = x
      · rw [follow?_eq, consumerNode?, consumer?, ← hox, ho] at hfollow
        simp at hfollow
      · have hconsumer : consumerNode? g (some ⟨o, i⟩) x = consumerNode? g none x := by
          rw [consumerNode?, consumerNode?, consumer?, consumer?, if_neg hox]
        rw [follow?_eq] at hfollow ⊢
        rw [hconsumer]
        split at hfollow
        · next hlive =>
          rw [if_pos hlive]
          split at hfollow
          · cases hfollow
          · next c role node hc =>
            split at hfollow
            · next hat =>
              simpa only [hat] using hfollow
            · exact ih _ (hk ▸ Search.length_unseen_cons_lt hlive.1 hlive.2) node.output (x :: seen)
                name rfl hfollow
        · cases hfollow
  cases hn : g.node? n with
  | none => simp [bindingSite?, hn] at hsite
  | some node =>
    obtain ⟨name, hblock, hwalk⟩ := bindingSite?_block hn hsite
    simp only [bindingSite?, hn, hblock]
    exact hfollow _ node.output [] name rfl hwalk

end BlockGraph.Workspace
