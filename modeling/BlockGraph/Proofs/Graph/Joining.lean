import BlockGraph.Proofs.Graph.Changes
import BlockGraph.Proofs.Graph.Order

/-!
# A new link

A link between a free output and a free input makes one component of the components
of its two ends, and leaves all other nodes as they are.  If the node of the input
does not lead to the node of the output, the new component has no cycle where the
two had none.
-/

namespace BlockGraph
namespace Graph

variable {g : Graph} {o i s : SocketId} {a b p c n : NodeId}

/-- An output and an input that are free, with the nodes that they belong to. -/
structure Linkable (g : Graph) (o i : SocketId) (p c : NodeId) : Prop where
  output : g.At o p .output
  input : ∃ k, g.At i c (.input k)
  output_free : g.peer? o = none
  input_free : g.peer? i = none

namespace Linkable

theorem owner_output (hl : Linkable g o i p c) : g.owner? o = some p :=
  owner?_eq_some_iff.mpr ⟨_, hl.output⟩

theorem owner_input (hl : Linkable g o i p c) : g.owner? i = some c := by
  obtain ⟨k, hk⟩ := hl.input
  exact owner?_eq_some_iff.mpr ⟨_, hk⟩

theorem ne (hl : Linkable g o i p c) : o ≠ i := by
  rintro rfl
  obtain ⟨k, hk⟩ := hl.input
  cases (hl.output.unique hk).2

theorem wellFormed (h : g.WellFormed) (hl : Linkable g o i p c) : (g.wire o i).WellFormed := by
  obtain ⟨k, hk⟩ := hl.input
  exact wire_wellFormed h hl.output hk hl.output_free hl.input_free

theorem linked_iff (hl : Linkable g o i p c) :
    (g.wire o i).Linked a b ↔ g.Linked a b ∨ (a = p ∧ b = c) ∨ (a = c ∧ b = p) := by
  have howner : ∀ s, (g.wire o i).owner? s = g.owner? s := fun _ => rfl
  have ho := hl.owner_output
  have hi := hl.owner_input
  simp only [Linked, howner, wired_wire]
  constructor
  · rintro ⟨s, t, hs, ht, (⟨rfl, rfl⟩ | hw) | ⟨rfl, rfl⟩ | hw⟩
    · rw [ho] at hs
      rw [hi] at ht
      cases hs
      cases ht
      exact .inr (.inl ⟨rfl, rfl⟩)
    · exact .inl ⟨s, t, hs, ht, .inl hw⟩
    · rw [hi] at hs
      rw [ho] at ht
      cases hs
      cases ht
      exact .inr (.inr ⟨rfl, rfl⟩)
    · exact .inl ⟨s, t, hs, ht, .inr hw⟩
  · rintro (⟨s, t, hs, ht, hw⟩ | ⟨rfl, rfl⟩ | ⟨rfl, rfl⟩)
    · exact ⟨s, t, hs, ht, hw.imp .inr .inr⟩
    · exact ⟨o, i, ho, hi, .inl (.inl ⟨rfl, rfl⟩)⟩
    · exact ⟨i, o, hi, ho, .inr (.inl ⟨rfl, rfl⟩)⟩

theorem connected_mono (hl : Linkable g o i p c) (hc : g.Connected a b) :
    (g.wire o i).Connected a b :=
  Relation.ReflTransGen.mono (fun _ _ h => hl.linked_iff.mpr (.inl h)) _ _ hc

theorem connected_iff (hl : Linkable g o i p c) :
    (g.wire o i).Connected p n ↔ g.Connected p n ∨ g.Connected c n := by
  constructor
  · intro hc
    induction hc with
    | refl => exact .inl (.refl g p)
    | tail _ hlink ih =>
      rcases hl.linked_iff.mp hlink with hlink | ⟨_, rfl⟩ | ⟨_, rfl⟩
      · exact ih.imp (fun h => h.tail hlink) fun h => h.tail hlink
      · exact .inr (.refl g _)
      · exact .inl (.refl g _)
  · rintro (hc | hc)
    · exact hl.connected_mono hc
    · exact .head (hl.linked_iff.mpr (.inr (.inl ⟨rfl, rfl⟩))) (hl.connected_mono hc)

theorem peer?_of_ne (h : g.WellFormed) (hl : Linkable g o i p c) (ho : s ≠ o) (hi : s ≠ i) :
    (g.wire o i).peer? s = g.peer? s := by
  refine peer?_congr h.links (hl.wellFormed h).links fun t => ?_
  have hnot : ¬ (s = o ∧ t = i) ∧ ¬ (t = o ∧ s = i) := ⟨fun he => ho he.1, fun he => hi he.2⟩
  rw [wired_wire, wired_wire]
  simp only [hnot.1, hnot.2, false_or]

theorem sameAt (h : g.WellFormed) (hl : Linkable g o i p c)
    (hn : ¬ (g.wire o i).Connected p n) : SameAt g (g.wire o i) n := by
  have hne : ∀ s, g.owner? s = some n → s ≠ o ∧ s ≠ i := by
    refine fun s hs => ⟨?_, ?_⟩
    · rintro rfl
      rw [hl.owner_output] at hs
      cases hs
      exact hn (.refl _ _)
    · rintro rfl
      rw [hl.owner_input] at hs
      cases hs
      exact hn (hl.connected_iff.mpr (.inr (.refl g _)))
  exact ⟨rfl, fun _ _ => rfl, fun s hs => hl.peer?_of_ne h (hne s hs).1 (hne s hs).2⟩

theorem feeds_iff (hl : Linkable g o i p c) :
    (g.wire o i).Feeds a b ↔ g.Feeds a b ∨ (a = p ∧ b = c) := by
  have howner : ∀ s, (g.wire o i).owner? s = g.owner? s := fun _ => rfl
  simp only [Feeds, howner, wired_wire]
  constructor
  · rintro ⟨s, t, ⟨rfl, rfl⟩ | hw, hs, ht⟩
    · rw [hl.owner_output] at hs
      rw [hl.owner_input] at ht
      cases hs
      cases ht
      exact .inr ⟨rfl, rfl⟩
    · exact .inl ⟨s, t, hw, hs, ht⟩
  · rintro (⟨s, t, hw, hs, ht⟩ | ⟨rfl, rfl⟩)
    · exact ⟨s, t, .inr hw, hs, ht⟩
    · exact ⟨o, i, .inl ⟨rfl, rfl⟩, hl.owner_output, hl.owner_input⟩

/-- What the node of the input leads to is lifted above the node of the output. -/
theorem exists_rank (hl : Linkable g o i p c) (hcycle : ¬ Relation.ReflTransGen g.Feeds c p)
    (hp : ∃ rank : NodeId → Nat, ∀ a b, g.Connected p a → g.Feeds a b → rank a < rank b)
    (hc : ∃ rank : NodeId → Nat, ∀ a b, g.Connected c a → g.Feeds a b → rank a < rank b) :
    ∃ rank : NodeId → Nat, ∀ a b, (g.wire o i).Connected p a → (g.wire o i).Feeds a b →
      rank a < rank b := by
  classical
  obtain ⟨rp, hrp⟩ := hp
  obtain ⟨rc, hrc⟩ := hc
  let base : NodeId → Nat := fun n => if g.Connected p n then rp n else rc n
  have hbase : ∀ a b, (g.wire o i).Connected p a → g.Feeds a b → base a < base b := by
    intro a b ha hf
    by_cases hpa : g.Connected p a
    · have hpb : g.Connected p b := hpa.tail hf.linked
      simp only [base, if_pos hpa, if_pos hpb]
      exact hrp a b hpa hf
    · have hpb : ¬ g.Connected p b := fun hpb => hpa (hpb.tail hf.linked.symm)
      simp only [base, if_neg hpa, if_neg hpb]
      exact hrc a b ((hl.connected_iff.mp ha).resolve_left hpa) hf
  let lift : NodeId → Nat := fun n => if Relation.ReflTransGen g.Feeds c n then base p + 1 else 0
  refine ⟨fun n => base n + lift n, fun a b ha hf => ?_⟩
  rcases hl.feeds_iff.mp hf with hf | ⟨rfl, rfl⟩
  · have hlt := hbase a b ha hf
    have hle : lift a ≤ lift b := by
      by_cases hca : Relation.ReflTransGen g.Feeds c a
      · simp only [lift, if_pos hca, if_pos (hca.tail hf)]
        exact Nat.le_refl _
      · simp only [lift, if_neg hca]
        exact Nat.zero_le _
    exact Nat.add_lt_add_of_lt_of_le hlt hle
  · simp only [lift, if_neg hcycle, if_pos Relation.ReflTransGen.refl]
    omega

end Linkable
end Graph
end BlockGraph
