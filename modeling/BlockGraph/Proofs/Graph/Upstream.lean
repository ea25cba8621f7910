import BlockGraph.Proofs.Expr.Context
import BlockGraph.Proofs.Graph.Cycles

/-!
# What lies upstream of a node

An output feeds at most one input, so the nodes upstream of a node form a tree, if no
node leads back to itself.  The nodes upstream of one input of a node are upstream of
no other input of it.
-/

namespace BlockGraph
namespace Graph

variable {g : Graph} {s t : SocketId} {a b c m n : NodeId} {node : Node}

/-- A chain of links leads from the output of a node to an input of the other, or they are one. -/
def Upstream (g : Graph) : NodeId → NodeId → Prop :=
  Relation.ReflTransGen g.Feeds

/-- A node is upstream of the output that feeds an input. -/
def UpstreamOf (g : Graph) (s : SocketId) (m : NodeId) : Prop :=
  ∃ o p, g.peer? s = some o ∧ g.At o p .output ∧ g.Upstream m p

theorem Feeds.exists_input (h : g.WellFormed) (hfeeds : g.Feeds m n) :
    ∃ s k o, g.At s n (.input k) ∧ g.peer? s = some o ∧ g.At o m .output := by
  obtain ⟨o, s, hw, ho, hs⟩ := hfeeds
  obtain ⟨p, hp⟩ := h.wired_output o s hw
  obtain ⟨c, k, hk⟩ := h.wired_input o s hw
  rw [owner?_eq_some_iff.mpr ⟨_, hp⟩] at ho
  rw [owner?_eq_some_iff.mpr ⟨_, hk⟩] at hs
  cases ho
  cases hs
  exact ⟨s, k, o, hk, (peer?_eq_some_iff h.links).mpr (.inr hw), hp⟩

theorem feeds_iff (h : g.WellFormed) (hn : g.node? n = some node) :
    g.Feeds m n ↔ ∃ s ∈ node.inputs, ∃ o, g.peer? s = some o ∧ g.At o m .output := by
  constructor
  · intro hfeeds
    obtain ⟨s, k, o, hs, hp, ho⟩ := hfeeds.exists_input h
    exact ⟨s, (mem_inputs_iff h hn).mpr ⟨k, hs⟩, o, hp, ho⟩
  · rintro ⟨s, hs, o, hp, ho⟩
    obtain ⟨k, hk⟩ := (mem_inputs_iff h hn).mp hs
    obtain ⟨p, ho', _, hfeeds⟩ := exists_feeds h hk hp
    obtain ⟨rfl, _⟩ := ho.unique ho'
    exact hfeeds

theorem not_upstreamOf (hp : g.peer? s = none) : ¬ g.UpstreamOf s m := by
  rintro ⟨o, _, ho, _⟩
  rw [hp] at ho
  cases ho

theorem upstream_iff (h : g.WellFormed) (hn : g.node? n = some node) :
    g.Upstream m n ↔ m = n ∨ ∃ s ∈ node.inputs, g.UpstreamOf s m := by
  constructor
  · intro hpath
    rcases Relation.ReflTransGen.cases_tail hpath with rfl | ⟨p, hpath, hfeeds⟩
    · exact .inl rfl
    · obtain ⟨s, hs, o, hp, ho⟩ := (feeds_iff h hn).mp hfeeds
      exact .inr ⟨s, hs, o, p, hp, ho, hpath⟩
  · rintro (rfl | ⟨s, hs, o, p, hp, ho, hpath⟩)
    · exact .refl
    · exact hpath.tail ((feeds_iff h hn).mpr ⟨s, hs, o, hp, ho⟩)

/-- Upstream of two inputs of a node there is no node in common, since the path downstream from it
would come to the node through one input, and again through the other. -/
theorem UpstreamOf.unique (h : g.WellFormed) (hacyclic : g.Acyclic) (hn : g.node? n = some node)
    (hs : s ∈ node.inputs) (ht : t ∈ node.inputs) (hms : g.UpstreamOf s m)
    (hmt : g.UpstreamOf t m) : s = t := by
  obtain ⟨o, p, hp, ho, hpath⟩ := hms
  obtain ⟨o', p', hp', ho', hpath'⟩ := hmt
  have hfeeds := (feeds_iff h hn).mpr ⟨s, hs, o, hp, ho⟩
  have hfeeds' := (feeds_iff h hn).mpr ⟨t, ht, o', hp', ho'⟩
  -- A path from one producer to the other would start with the link into the node itself.
  have hsame : ∀ a b, g.Feeds a n → g.Feeds b n → g.Upstream a b → a = b := by
    intro a b ha hb hab
    rcases Relation.ReflTransGen.cases_head hab with rfl | ⟨c, hac, hcb⟩
    · rfl
    · obtain rfl := ha.unique h hac
      exact absurd (Relation.TransGen.tail' hcb hb) (hacyclic n)
  have hpp : p = p' := by
    have hunique : Relator.RightUnique g.Feeds := fun _ _ _ hb hc => Feeds.unique h hb hc
    rcases Relation.ReflTransGen.total_of_right_unique hunique hpath hpath' with hab | hba
    · exact hsame p p' hfeeds hfeeds' hab
    · exact (hsame p' p hfeeds' hfeeds hba).symm
  subst hpp
  obtain ⟨producer, hproducer⟩ := ho.node? h
  rw [(At.output_eq h hproducer).mp ho] at hp
  rw [(At.output_eq h hproducer).mp ho'] at hp'
  rw [peer?_comm h.links] at hp hp'
  exact Option.some_inj.mp (hp.symm.trans hp')

end Graph
end BlockGraph
