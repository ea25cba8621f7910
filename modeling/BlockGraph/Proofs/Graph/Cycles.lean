import BlockGraph.Proofs.Graph.Joining
import Mathlib.Data.Finset.Card

/-!
# Cycles

A component has a cycle if a chain of links leads from one of its nodes back to this
node, from outputs to inputs.  Where there is none, the number of nodes that lead to
a node is a rank for it.  So the search for an order of components succeeds if none
of them has a cycle, and only then.
-/

namespace BlockGraph
namespace Graph

variable {g g' : Graph} {o i : SocketId} {a b c m n p : NodeId}

/-- A node that hangs together with the given one leads back to itself. -/
def Cyclic (g : Graph) (n : NodeId) : Prop :=
  ∃ m, g.Connected n m ∧ Relation.TransGen g.Feeds m m

theorem cyclic_congr (h : g'.outline = g.outline) : g'.Cyclic = g.Cyclic := by
  funext n
  rw [Cyclic, connected_congr h, feeds_congr h, Cyclic]

theorem cyclic_of_connected (hc : g.Connected n m) : g.Cyclic n ↔ g.Cyclic m :=
  ⟨fun ⟨k, hk, hcycle⟩ => ⟨k, hc.symm.trans hk, hcycle⟩,
    fun ⟨k, hk, hcycle⟩ => ⟨k, hc.trans hk, hcycle⟩⟩

/-! ## Ranks -/

theorem rank_lt_of_transGen {rank : NodeId → Nat}
    (hrank : ∀ p c, g.Connected n p → g.Feeds p c → rank p < rank c) (ha : g.Connected n a)
    (hpath : Relation.TransGen g.Feeds a b) : rank a < rank b ∧ g.Connected n b := by
  induction hpath with
  | single hf => exact ⟨hrank _ _ ha hf, ha.tail hf.linked⟩
  | tail _ hf ih => exact ⟨Nat.lt_trans ih.1 (hrank _ _ ih.2 hf), ih.2.tail hf.linked⟩

/-- The nodes that lead to a node are fewer than those that lead to what it feeds. -/
theorem exists_rank (h : g.WellFormed) :
    ∃ rank : NodeId → Nat, ∀ p c, ¬ g.Cyclic p → g.Feeds p c → rank p < rank c := by
  classical
  let before : NodeId → Finset NodeId := fun n =>
    g.nodeIds.toFinset.filter fun m => Relation.TransGen g.Feeds m n
  refine ⟨fun n => (before n).card, fun p c hp hf => Finset.card_lt_card ?_⟩
  refine Finset.ssubset_iff_subset_ne.mpr ⟨fun m hm => ?_, fun heq => ?_⟩
  · obtain ⟨hlive, hpath⟩ := Finset.mem_filter.mp hm
    exact Finset.mem_filter.mpr ⟨hlive, hpath.tail hf⟩
  · have hlive : p ∈ g.nodeIds.toFinset := by
      obtain ⟨s, t, _, hs, _⟩ := hf
      obtain ⟨node, hnode, _⟩ := owner?_node h hs
      exact List.mem_toFinset.mpr (mem_nodeIds.mpr ⟨node, hnode⟩)
    have hmem : p ∈ before p := heq ▸ Finset.mem_filter.mpr ⟨hlive, .single hf⟩
    exact hp ⟨p, .refl g p, (Finset.mem_filter.mp hmem).2⟩

theorem not_cyclic_iff (h : g.WellFormed) :
    ¬ g.Cyclic n ↔ ∃ rank : NodeId → Nat, ∀ p c, g.Connected n p → g.Feeds p c →
      rank p < rank c := by
  constructor
  · intro hn
    obtain ⟨rank, hrank⟩ := exists_rank h
    exact ⟨rank, fun p c hp => hrank p c fun hcyclic => hn ((cyclic_of_connected hp).mpr hcyclic)⟩
  · rintro ⟨rank, hrank⟩ ⟨m, hm, hcycle⟩
    exact Nat.lt_irrefl _ (rank_lt_of_transGen hrank hm hcycle).1

/-! ## The search for an order -/

theorem topologicalOrder_error {nodes : List NodeId} {e : Dangling}
    (he : g.topologicalOrder nodes = .error e) : ∃ n, e = .cycle n := by
  rw [topologicalOrder] at he
  split at he
  · cases he
  · next n _ =>
    cases he
    exact ⟨n, rfl⟩

theorem topologicalOrder_component_iff (h : g.WellFormed) (seeds : List SocketId) :
    (∃ order, g.topologicalOrder (g.component seeds).nodes = .ok order) ↔
      ∀ n ∈ (g.component seeds).nodes, ¬ g.Cyclic n := by
  constructor
  · rintro ⟨order, horder⟩ n hn
    obtain ⟨rank, hrank⟩ := (topologicalOrder_ok h horder).2
    refine (not_cyclic_iff h).mpr ⟨rank, fun p c hp hf => ?_⟩
    have hp := component_closed h hn hp
    exact hrank p c hp (component_closed h hp (.tail .refl hf.linked)) hf
  · intro hnone
    obtain ⟨rank, hrank⟩ := exists_rank h
    exact topologicalOrder_complete h fun p c hp _ => hrank p c (hnone p hp)

/-! ## Cycles in two graphs -/

theorem SameAt.feeds (h : g.WellFormed) (h' : g'.WellFormed) (hp : SameAt g g' p)
    (hc : SameAt g g' c) (hf : g'.Feeds p c) : g.Feeds p c := by
  obtain ⟨s, t, hw, hs, ht⟩ := hf
  have hs := (hp.owner h h').mp hs
  exact ⟨s, t, hp.wired h h' hs hw, hs, (hc.owner h h').mp ht⟩

theorem transGen_of_sameAt (h : g.WellFormed) (h' : g'.WellFormed)
    (hsame : ∀ m, g.Connected n m → SameAt g g' m) (ha : g.Connected n a)
    (hpath : Relation.TransGen g'.Feeds a b) :
    Relation.TransGen g.Feeds a b ∧ g.Connected n b := by
  have hconn := fun {m} => connected_iff_of_sameAt h h' hsame (m := m)
  induction hpath with
  | single hf =>
    have hb := hconn.mp ((hconn.mpr ha).tail hf.linked)
    exact ⟨.single ((hsame a ha).feeds h h' (hsame _ hb) hf), hb⟩
  | tail _ hf ih =>
    have hb := hconn.mp ((hconn.mpr ih.2).tail hf.linked)
    exact ⟨ih.1.tail ((hsame _ ih.2).feeds h h' (hsame _ hb) hf), hb⟩

/-- A component that is the same in both graphs has a cycle in both or in none. -/
theorem cyclic_iff_of_sameAt (h : g.WellFormed) (h' : g'.WellFormed)
    (hsame : ∀ m, g.Connected n m → SameAt g g' m) : g'.Cyclic n ↔ g.Cyclic n := by
  have hconn := fun {m} => connected_iff_of_sameAt h h' hsame (m := m)
  have hback : ∀ m, g'.Connected n m → SameAt g' g m := fun m hm =>
    (hsame m (hconn.mp hm)).symm h h'
  refine exists_congr fun m => ⟨fun ⟨hm, hcycle⟩ => ?_, fun ⟨hm, hcycle⟩ => ?_⟩
  · have hm := hconn.mp hm
    exact ⟨hm, (transGen_of_sameAt h h' hsame hm hcycle).1⟩
  · have hm := hconn.mpr hm
    exact ⟨hm, (transGen_of_sameAt h' h hback hm hcycle).1⟩

theorem Linkable.cyclic (hl : Linkable g o i p c) (hn : g.Cyclic n) : (g.wire o i).Cyclic n := by
  obtain ⟨m, hm, hcycle⟩ := hn
  exact ⟨m, hl.connected_mono hm,
    Relation.TransGen.mono (fun _ _ hf => hl.feeds_iff.mpr (.inl hf)) _ _ hcycle⟩

/-! ## Graphs without cycles -/

/-- No node leads back to itself. -/
def Acyclic (g : Graph) : Prop :=
  ∀ n, ¬ Relation.TransGen g.Feeds n n

theorem empty_acyclic : ({} : Graph).Acyclic := by
  have hfree : ∀ a b, ¬ ({} : Graph).Feeds a b := by
    rintro a b ⟨s, t, _, hs, _⟩
    cases hs
  intro n hcycle
  cases hcycle with
  | single hf => exact hfree _ _ hf
  | tail _ hf => exact hfree _ _ hf

theorem Acyclic.not_cyclic (h : g.Acyclic) (n : NodeId) : ¬ g.Cyclic n := by
  rintro ⟨m, _, hcycle⟩
  exact h m hcycle

theorem Acyclic.of_feeds (h : g.Acyclic) (hfeeds : ∀ p c, g'.Feeds p c → g.Feeds p c) :
    g'.Acyclic :=
  fun n hcycle => h n (Relation.TransGen.mono hfeeds _ _ hcycle)

/-- A chain of links that uses a new one leads to its output and from its input. -/
theorem Linkable.transGen (hl : Linkable g o i p c)
    (hpath : Relation.TransGen (g.wire o i).Feeds a b) :
    Relation.TransGen g.Feeds a b ∨
      (Relation.ReflTransGen g.Feeds a p ∧ Relation.ReflTransGen g.Feeds c b) := by
  induction hpath with
  | single hf =>
    rcases hl.feeds_iff.mp hf with hf | ⟨rfl, rfl⟩
    · exact .inl (.single hf)
    · exact .inr ⟨.refl, .refl⟩
  | tail _ hf ih =>
    rcases hl.feeds_iff.mp hf with hf | ⟨rfl, rfl⟩
    · exact ih.imp (fun hpath => hpath.tail hf) fun hpath => ⟨hpath.1, hpath.2.tail hf⟩
    · exact .inr ⟨ih.elim Relation.TransGen.to_reflTransGen And.left, .refl⟩

/-- A link makes no cycle if its input does not lead to its output. -/
theorem Linkable.acyclic (hl : Linkable g o i p c) (h : g.Acyclic)
    (hcycle : ¬ Relation.ReflTransGen g.Feeds c p) : (g.wire o i).Acyclic := by
  intro n hpath
  rcases hl.transGen hpath with hpath | ⟨hp, hc⟩
  · exact h n hpath
  · exact hcycle (hc.trans hp)

end Graph
end BlockGraph
