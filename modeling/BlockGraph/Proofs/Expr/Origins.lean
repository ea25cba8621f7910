import BlockGraph.Proofs.Graph.Upstream

/-!
# What an expression is built for

A name or a value in an expression is built for a node, for an input that nothing
feeds, or for an input that leads back to where the building began.  `BuiltAt` says
which of them are met behind an input, and `BuiltIn` which belong to the expression of
a node.  An output feeds at most one input, so that nothing is met behind two inputs of
a node that the building has come to.
-/

namespace BlockGraph

/-- What a name or a value in an expression is built for. -/
inductive Build.Origin where
  | node (n : NodeId)
  /-- A further part of the expression of a distinction of cases. -/
  | part (n : NodeId)
  /-- An input that nothing feeds. -/
  | gap (s : SocketId)
  /-- An input that is fed by the node where the building began. -/
  | back (s : SocketId)
  deriving DecidableEq

/-- Whether a block leaves out the input at a position if nothing feeds it. -/
def Block.isScrutinee : Block → Nat → Bool
  | caseOf _ _, 0 => true
  | _, _ => false

namespace Graph

open Build

variable {g : Graph} {root s t o : SocketId} {r m n : NodeId} {k l : Nat} {path : List SocketId}
  {x : Origin}

/-- The inputs on the way from a node to where the building began, the nearest first. -/
inductive Route (g : Graph) (root : SocketId) : NodeId → List SocketId → Prop
  | root {r : NodeId} (hr : g.owner? root = some r) : Route g root r []
  | input {n m : NodeId} {s o : SocketId} {k : Nat} {path : List SocketId}
      (h : Route g root n path) (hs : g.At s n (.input k)) (hp : g.peer? s = some o)
      (ho : g.At o m .output) (hm : g.owner? root ≠ some m) : Route g root m (s :: path)

/-- Nothing feeds an input, and it is not left out for that. -/
def Vacant (g : Graph) (s : SocketId) : Prop :=
  ∃ n k node, g.At s n (.input k) ∧ g.node? n = some node ∧ node.block.isScrutinee k = false ∧
    g.peer? s = none

/-- From an input to the one that its node feeds.  The building began at the node of `root`, so this
is the end of the way. -/
def Onward (g : Graph) (root s t : SocketId) : Prop :=
  ∃ m k o, g.At s m (.input k) ∧ g.At o m .output ∧ g.peer? t = some o ∧ g.owner? root ≠ some m

/-- What is met right behind an input. -/
def Enters (g : Graph) (root : SocketId) : Origin → SocketId → Prop
  | .node m, t => g.owner? root ≠ some m ∧ ∃ o, g.peer? t = some o ∧ g.At o m .output
  | .part _, _ => False
  | .gap s, t => s = t ∧ g.Vacant s
  | .back s, t => s = t ∧ ∃ o r, g.peer? s = some o ∧ g.At o r .output ∧ g.owner? root = some r

/-- What is met behind an input. -/
def BuiltAt (g : Graph) (root : SocketId) (x : Origin) (t : SocketId) : Prop :=
  ∃ s, g.Enters root x s ∧ Relation.ReflTransGen (g.Onward root) s t

/-- What belongs to the expression of a node. -/
def BuiltIn (g : Graph) (root : SocketId) (x : Origin) (n : NodeId) : Prop :=
  x = .node n ∨ ∃ s k, g.At s n (.input k) ∧ g.BuiltAt root x s

theorem builtIn_iff (h : g.WellFormed) {node : Node} (hn : g.node? n = some node) :
    g.BuiltIn root x n ↔ x = .node n ∨ ∃ s ∈ node.inputs, g.BuiltAt root x s := by
  refine or_congr .rfl (exists_congr fun s => ?_)
  rw [mem_inputs_iff h hn, exists_and_right]

/-! ## One input after another -/

theorem peer?_unique (h : g.WellFormed) (hs : g.peer? s = some o) (ht : g.peer? t = some o) :
    s = t := by
  rw [peer?_comm h.links] at hs ht
  exact Option.some_inj.mp (hs.symm.trans ht)

theorem At.output_unique (h : g.WellFormed) (ho : g.At o n .output) (ho' : g.At s n .output) :
    o = s := by
  obtain ⟨node, hn⟩ := ho.node? h
  rw [(At.output_eq h hn).mp ho, (At.output_eq h hn).mp ho']

theorem Onward.unique (h : g.WellFormed) {u : SocketId} (ht : g.Onward root s t)
    (hu : g.Onward root s u) : t = u := by
  obtain ⟨m, k, o, hs, ho, hp, _⟩ := ht
  obtain ⟨m', k', o', hs', ho', hp', _⟩ := hu
  obtain ⟨rfl, _⟩ := hs.unique hs'
  obtain rfl := ho.output_unique h ho'
  exact peer?_unique h hp hp'

theorem Enters.unique (h : g.WellFormed) (hs : g.Enters root x s) (ht : g.Enters root x t) :
    s = t := by
  cases x with
  | node m =>
    obtain ⟨_, o, hp, ho⟩ := hs
    obtain ⟨_, o', hp', ho'⟩ := ht
    obtain rfl := ho.output_unique h ho'
    exact peer?_unique h hp hp'
  | part m => cases hs
  | gap u => exact hs.1.symm.trans ht.1
  | back u => exact hs.1.symm.trans ht.1

/-- The way from an input ends where the building began, so it does not lead back to the input. -/
theorem Route.not_onward_self (h : g.WellFormed) (hroute : g.Route root n path)
    (hs : g.At s n (.input k)) : ¬ Relation.TransGen (g.Onward root) s s := by
  induction hroute generalizing s k with
  | root hr =>
    intro hcycle
    obtain ⟨t, ⟨m, _, _, hs', _, _, hm⟩, _⟩ := Relation.TransGen.head'_iff.mp hcycle
    obtain ⟨rfl, _⟩ := hs.unique hs'
    exact hm hr
  | @input n m t o _ path _ ht hp ho hm ih =>
    intro hcycle
    obtain ⟨u, hsu, hus⟩ := Relation.TransGen.head'_iff.mp hcycle
    have hst : g.Onward root s t := ⟨m, k, o, hs, ho, hp, hm⟩
    obtain rfl := hsu.unique h hst
    exact ih ht (Relation.TransGen.tail' hus hst)

theorem BuiltAt.unique (h : g.WellFormed) (hroute : g.Route root n path)
    (hs : g.At s n (.input k)) (ht : g.At t n (.input l)) (hxs : g.BuiltAt root x s)
    (hxt : g.BuiltAt root x t) : s = t := by
  obtain ⟨a, ha, has⟩ := hxs
  obtain ⟨b, hb, hbt⟩ := hxt
  obtain rfl := ha.unique h hb
  -- Both inputs lead on to the same one, so the way from one to the other would go in a circle.
  have hsame : ∀ {s t k l}, g.At s n (.input k) → g.At t n (.input l) →
      Relation.ReflTransGen (g.Onward root) s t → s = t := by
    intro s t k l hs ht hst
    rcases Relation.ReflTransGen.cases_head hst with rfl | ⟨u, hsu, hut⟩
    · rfl
    · obtain ⟨m, _, o, hs', ho, hp, hm⟩ := hsu
      obtain ⟨rfl, _⟩ := hs.unique hs'
      have htu : g.Onward root t u := ⟨n, l, o, ht, ho, hp, hm⟩
      exact absurd (Relation.TransGen.head' htu hut) (hroute.not_onward_self h ht)
  have hunique : Relator.RightUnique (g.Onward root) := fun _ _ _ hb hc => Onward.unique h hb hc
  rcases Relation.ReflTransGen.total_of_right_unique hunique has hbt with hst | hts
  · exact hsame hs ht hst
  · exact (hsame ht hs hts).symm

theorem Route.not_builtAt_self (h : g.WellFormed) (hroute : g.Route root n path)
    (hs : g.At s n (.input k)) : ¬ g.BuiltAt root (.node n) s := by
  rintro ⟨t, ⟨hn, o, hp, ho⟩, hts⟩
  have hst : g.Onward root s t := ⟨n, k, o, hs, ho, hp, hn⟩
  exact hroute.not_onward_self h hs (Relation.TransGen.head' hst hts)

/-! ## What is met behind an input -/

theorem builtAt_unlinked (hp : g.peer? s = none) :
    g.BuiltAt root x s ↔ x = .gap s ∧ g.Vacant s := by
  constructor
  · rintro ⟨t, ht, hts⟩
    rcases Relation.ReflTransGen.cases_tail hts with rfl | ⟨u, _, m, k, o, _, _, hp', _⟩
    · cases x with
      | node m =>
        obtain ⟨_, o, hp', _⟩ := ht
        cases hp.symm.trans hp'
      | part m => cases ht
      | gap u =>
        obtain ⟨rfl, hvacant⟩ := ht
        exact ⟨rfl, hvacant⟩
      | back u =>
        obtain ⟨rfl, o, r, hp', _⟩ := ht
        cases hp.symm.trans hp'
    · cases hp.symm.trans hp'
  · rintro ⟨rfl, hvacant⟩
    exact ⟨s, ⟨rfl, hvacant⟩, .refl⟩

theorem builtAt_linked (hp : g.peer? s = some o) (ho : g.At o m .output)
    (hm : g.owner? root ≠ some m) : g.BuiltAt root x s ↔ g.BuiltIn root x m := by
  constructor
  · rintro ⟨t, ht, hts⟩
    rcases Relation.ReflTransGen.cases_tail hts with rfl | ⟨u, htu, m', k, o', hu, ho', hp', _⟩
    · cases x with
      | node m' =>
        obtain ⟨_, o', hp', ho'⟩ := ht
        cases hp.symm.trans hp'
        exact .inl (congrArg _ (ho'.unique ho).1)
      | part m' => cases ht
      | gap u =>
        obtain ⟨rfl, _, _, _, _, _, _, hnone⟩ := ht
        cases hp.symm.trans hnone
      | back u =>
        obtain ⟨rfl, o', r, hp', ho', hr⟩ := ht
        cases hp.symm.trans hp'
        exact absurd ((ho'.unique ho).1 ▸ hr) hm
    · cases hp.symm.trans hp'
      obtain ⟨rfl, _⟩ := ho'.unique ho
      exact .inr ⟨u, k, hu, t, ht, htu⟩
  · rintro (rfl | ⟨t, k, ht, a, ha, hat⟩)
    · exact ⟨s, ⟨hm, o, hp, ho⟩, .refl⟩
    · exact ⟨a, ha, hat.tail ⟨m, k, o, ht, ho, hp, hm⟩⟩

theorem builtAt_back (hp : g.peer? s = some o) (ho : g.At o r .output)
    (hr : g.owner? root = some r) : g.BuiltAt root x s ↔ x = .back s := by
  constructor
  · rintro ⟨t, ht, hts⟩
    rcases Relation.ReflTransGen.cases_tail hts with rfl | ⟨u, _, m, k, o', _, ho', hp', hm⟩
    · cases x with
      | node m =>
        obtain ⟨hm, o', hp', ho'⟩ := ht
        cases hp.symm.trans hp'
        exact absurd ((ho.unique ho').1 ▸ hr) hm
      | part m => cases ht
      | gap u =>
        obtain ⟨rfl, _, _, _, _, _, _, hnone⟩ := ht
        cases hp.symm.trans hnone
      | back u => rw [ht.1]
    · cases hp.symm.trans hp'
      exact absurd ((ho.unique ho').1 ▸ hr) hm
  · rintro rfl
    exact ⟨s, ⟨rfl, o, r, hp, ho, hr⟩, .refl⟩

/-! ## What belongs to the whole expression -/

theorem exists_feeds_of_output (h : g.WellFormed) (hp : g.peer? s = some o)
    (ho : g.At o m .output) : ∃ c k, g.At s c (.input k) ∧ g.Feeds m c := by
  have hw : g.Wired o s :=
    ((peer?_eq_some_iff h.links).mp hp).resolve_left fun hw => not_wired_output h ho hw
  obtain ⟨c, k, hs⟩ := h.wired_input o s hw
  exact ⟨c, k, hs, o, s, hw, owner?_eq_some_iff.mpr ⟨_, ho⟩, owner?_eq_some_iff.mpr ⟨_, hs⟩⟩

theorem upstream_of_onward (h : g.WellFormed) (hs : g.At s m (.input k)) (ht : g.At t n (.input l))
    (hst : Relation.ReflTransGen (g.Onward root) s t) : g.Upstream m n := by
  induction hst using Relation.ReflTransGen.head_induction_on generalizing m k with
  | refl =>
    obtain ⟨rfl, _⟩ := hs.unique ht
    exact .refl
  | @head s u hsu _ ih =>
    obtain ⟨m', _, o, hs', ho, hp, _⟩ := hsu
    obtain ⟨rfl, _⟩ := hs.unique hs'
    obtain ⟨c, j, hu, hfeeds⟩ := exists_feeds_of_output h hp ho
    exact .head hfeeds (ih hu)

/-- What is met behind an input of a node belongs to every expression that the node belongs to. -/
theorem BuiltIn.of_input (hm : g.BuiltIn root (.node m) n) (hs : g.At s m (.input k))
    (hx : g.BuiltAt root x s) : g.BuiltIn root x n := by
  obtain ⟨a, ha, has⟩ := hx
  rcases hm with heq | ⟨t, l, ht, b, ⟨hne, o, hp, ho⟩, hbt⟩
  · cases heq
    exact .inr ⟨s, k, hs, a, ha, has⟩
  · exact .inr ⟨t, l, ht, a, ha, (has.tail ⟨m, k, o, hs, ho, hp, hne⟩).trans hbt⟩

theorem builtIn_of_upstream (h : g.WellFormed) (hr : g.owner? root = some r)
    (hm : g.Upstream m r) : g.BuiltIn root (.node m) r := by
  induction hm using Relation.ReflTransGen.head_induction_on with
  | refl => exact .inl rfl
  | @head m c hfeeds _ ih =>
    by_cases hroot : g.owner? root = some m
    · rw [hr] at hroot
      cases hroot
      exact .inl rfl
    · obtain ⟨s, k, o, hs, hp, ho⟩ := hfeeds.exists_input h
      exact ih.of_input hs ⟨s, ⟨hroot, o, hp, ho⟩, .refl⟩

/-- What is met right behind an input belongs to the expression if the node of the input is
upstream. -/
theorem Enters.builtIn_iff (h : g.WellFormed) (hr : g.owner? root = some r)
    (hx : g.Enters root x s) (hs : g.At s m (.input k)) :
    g.BuiltIn root x r ↔ g.Upstream m r := by
  constructor
  · rintro (rfl | ⟨t, l, ht, a, ha, hat⟩)
    · exact absurd hr hx.1
    · obtain rfl := ha.unique h hx
      exact upstream_of_onward h hs ht hat
  · exact fun hm => (builtIn_of_upstream h hr hm).of_input hs ⟨s, hx, .refl⟩

theorem builtIn_node_iff (h : g.WellFormed) (hr : g.owner? root = some r) :
    g.BuiltIn root (.node m) r ↔ g.Upstream m r := by
  constructor
  · rintro (heq | ⟨t, l, ht, s, hs, hst⟩)
    · cases heq
      exact .refl
    · obtain ⟨_, o, hp, ho⟩ := hs
      obtain ⟨c, k, hk, hfeeds⟩ := exists_feeds_of_output h hp ho
      exact .head hfeeds (upstream_of_onward h hk ht hst)
  · exact builtIn_of_upstream h hr

/-- There is a way back if the node where the building began is on a cycle. -/
theorem exists_builtIn_back_iff (h : g.WellFormed) (hr : g.owner? root = some r) :
    (∃ s, g.BuiltIn root (.back s) r) ↔ Relation.TransGen g.Feeds r r := by
  constructor
  · rintro ⟨s, hs⟩
    obtain heq | ⟨_, _, _, _, henters, _⟩ := id hs
    · cases heq
    · obtain ⟨rfl, o, r', hp, ho, hr'⟩ := id henters
      cases hr.symm.trans hr'
      obtain ⟨c, k, hk, hfeeds⟩ := exists_feeds_of_output h hp ho
      exact .head' hfeeds ((henters.builtIn_iff h hr hk).mp hs)
  · intro hcycle
    obtain ⟨c, hfeeds, hpath⟩ := Relation.TransGen.head'_iff.mp hcycle
    obtain ⟨s, k, o, hs, hp, ho⟩ := hfeeds.exists_input h
    have henters : g.Enters root (.back s) s := ⟨rfl, o, r, hp, ho, hr⟩
    exact ⟨s, (henters.builtIn_iff h hr hs).mpr hpath⟩

/-- There is only one way back, since the node feeds one input. -/
theorem BuiltIn.back_unique (h : g.WellFormed) (hs : g.BuiltIn root (.back s) n)
    (ht : g.BuiltIn root (.back t) n) : s = t := by
  obtain heq | ⟨_, _, _, _, ⟨_, o, r, hp, ho, hr⟩, _⟩ := hs
  · cases heq
  obtain heq | ⟨_, _, _, _, ⟨_, o', r', hp', ho', hr'⟩, _⟩ := ht
  · cases heq
  cases hr.symm.trans hr'
  obtain rfl := ho.output_unique h ho'
  exact peer?_unique h hp hp'

theorem Route.upstream (h : g.WellFormed) (hr : g.owner? root = some r)
    (hroute : g.Route root n path) : g.Upstream n r := by
  induction hroute with
  | root hr' =>
    cases hr.symm.trans hr'
    exact .refl
  | input _ hs hp ho _ ih =>
    obtain ⟨c, k, hs', hfeeds⟩ := exists_feeds_of_output h hp ho
    obtain ⟨rfl, _⟩ := hs.unique hs'
    exact .head hfeeds ih

end Graph

end BlockGraph
