import BlockGraph.Graph.Links
import BlockGraph.Graph.Slots

/-!
# Numbers that are handed out and given back

Nodes, sockets and links are found by number.  A number that is handed out must
not be in use, and this holds because the numbers in use and the numbers that
were given back stay apart and were all handed out before.  `Numbering.Tracks`
says so for a list of numbers in use; `Slots` and `Links` keep it with the
numbers of their entries.  With it a lookup and membership among the entries are
the same thing.
-/

namespace BlockGraph

/-- The numbers in use are distinct, and a number that comes next is not among them. -/
structure Numbering.Tracks (n : Numbering) (used : List Nat) : Prop where
  used_nodup : used.Nodup
  free_nodup : n.free.Nodup
  not_used : ∀ k ∈ n.free, k ∉ used
  used_lt : ∀ k ∈ used, k < n.count
  free_lt : ∀ k ∈ n.free, k < n.count

namespace Numbering

variable {n : Numbering} {used used' : List Nat}

namespace Tracks

theorem take_not_used (h : n.Tracks used) : n.take.1 ∉ used := by
  rw [take]
  cases hf : n.free with
  | nil =>
    intro hk
    exact absurd (h.used_lt _ hk) (Nat.lt_irrefl _)
  | cons k rest => exact h.not_used k (by rw [hf]; exact List.mem_cons_self)

theorem take (h : n.Tracks used) (hnodup : used'.Nodup)
    (hmem : ∀ k, k ∈ used' ↔ k = n.take.1 ∨ k ∈ used) : n.take.2.Tracks used' := by
  have hfresh := h.take_not_used
  rw [Numbering.take] at hmem hfresh ⊢
  cases hf : n.free with
  | nil =>
    rw [hf] at hmem hfresh
    refine ⟨hnodup, by simp, by simp, fun k hk => ?_, by simp⟩
    show k < n.count + 1
    rcases (hmem k).mp hk with rfl | hk
    · exact Nat.lt_succ_self _
    · exact Nat.lt_succ_of_lt (h.used_lt k hk)
  | cons j rest =>
    rw [hf] at hmem hfresh
    have hfree := h.free_nodup
    rw [hf] at hfree
    obtain ⟨hj, hrest⟩ := List.nodup_cons.mp hfree
    have hsub : ∀ k ∈ rest, k ∈ n.free := fun k hk => by
      rw [hf]
      exact List.mem_cons_of_mem j hk
    refine ⟨hnodup, hrest, fun k hk hk' => ?_, fun k hk => ?_, fun k hk => h.free_lt k (hsub k hk)⟩
    · rcases (hmem k).mp hk' with rfl | hk'
      · exact hj hk
      · exact h.not_used k (hsub k hk) hk'
    · rcases (hmem k).mp hk with rfl | hk
      · exact h.free_lt k (by rw [hf]; exact List.mem_cons_self)
      · exact h.used_lt k hk

theorem giveBack {k : Nat} (h : n.Tracks used) (hk : k ∈ used) (hnodup : used'.Nodup)
    (hmem : ∀ j, j ∈ used' ↔ j ∈ used ∧ j ≠ k) : (n.giveBack k).Tracks used' := by
  refine ⟨hnodup, ?_, fun j hj => ?_, fun j hj => h.used_lt j ((hmem j).mp hj).1, fun j hj => ?_⟩
  · exact List.nodup_cons.mpr ⟨fun hfree => h.not_used k hfree hk, h.free_nodup⟩
  · rcases List.mem_cons.mp hj with rfl | hj
    · exact fun hj' => ((hmem j).mp hj').2 rfl
    · exact fun hj' => h.not_used j hj ((hmem j).mp hj').1
  · rcases List.mem_cons.mp hj with rfl | hj
    · exact h.used_lt j hk
    · exact h.free_lt j hj

theorem drop (h : n.Tracks used) (hnodup : used'.Nodup) (hmem : ∀ j ∈ used', j ∈ used) :
    n.Tracks used' :=
  ⟨hnodup, h.free_nodup, fun j hj hj' => h.not_used j hj (hmem j hj'),
    fun j hj => h.used_lt j (hmem j hj), h.free_lt⟩

end Tracks
end Numbering

theorem mem_iff_lookup_of_nodup {α : Type} {entries : List (Nat × α)}
    (h : (entries.map Prod.fst).Nodup) {k : Nat} {a : α} :
    (k, a) ∈ entries ↔ entries.lookup k = some a := by
  induction entries with
  | nil => simp
  | cons e rest ih =>
    obtain ⟨i, b⟩ := e
    obtain ⟨hi, hrest⟩ := List.nodup_cons.mp h
    rw [List.mem_cons, List.lookup_cons, Prod.mk.injEq, ih hrest]
    by_cases hk : k = i
    · have hnone : rest.lookup k ≠ some a := fun hsome =>
        hi (List.mem_map.mpr ⟨(k, a), (ih hrest).mpr hsome, hk⟩)
      simp [hk, hk ▸ hnone, eq_comm]
    · simp [hk, beq_false_of_ne hk]

/-! ## Slots -/

namespace Slots

variable {α : Type} {k : Nat}

/-- The numbers of the values are the numbers in use. -/
def WellFormed (s : Slots α) : Prop :=
  s.numbers.Tracks s.keys

theorem empty_wellFormed : ({} : Slots α).WellFormed :=
  ⟨.nil, .nil, fun _ h => absurd h List.not_mem_nil, fun _ h => absurd h List.not_mem_nil,
    fun _ h => absurd h List.not_mem_nil⟩

theorem mem_keys_iff {s : Slots α} : k ∈ s.keys ↔ ∃ a, s.get? k = some a := by
  constructor
  · rw [get?, keys]
    induction s.entries with
    | nil => exact fun hk => absurd hk List.not_mem_nil
    | cons e rest ih =>
      intro hk
      rw [List.lookup_cons]
      by_cases he : k = e.1
      · exact ⟨e.2, by simp [he]⟩
      · rw [beq_false_of_ne he]
        exact ih ((List.mem_cons.mp hk).resolve_left he)
  · rintro ⟨a, ha⟩
    exact mem_keys_of_get? ha

theorem mem_entries_iff {s : Slots α} (h : s.WellFormed) {a : α} :
    (k, a) ∈ s.entries ↔ s.get? k = some a :=
  mem_iff_lookup_of_nodup h.used_nodup

theorem put_perm (a : α) {entries : List (Nat × α)} (hk : k ∉ entries.map Prod.fst) :
    (put k a entries).Perm ((k, a) :: entries) := by
  induction entries with
  | nil => exact .refl _
  | cons e rest ih =>
    rw [List.map_cons, List.mem_cons, not_or] at hk
    rw [put]
    split
    · exact .refl _
    · rw [if_neg hk.1]
      exact ((ih hk.2).cons e).trans (.swap (k, a) e rest)

theorem mem_keys_put {j : Nat} {a : α} {entries : List (Nat × α)}
    (hj : j ∈ (put k a entries).map Prod.fst) : j = k ∨ j ∈ entries.map Prod.fst := by
  obtain ⟨b, hb⟩ := (mem_keys_iff (s := ⟨put k a entries, {}⟩)).mp hj
  rw [get?, lookup_put] at hb
  split at hb
  · next hjk => exact .inl hjk
  · exact .inr ((mem_keys_iff (s := ⟨entries, {}⟩)).mpr ⟨b, hb⟩)

theorem put_ascending (k : Nat) (a : α) {entries : List (Nat × α)}
    (h : (entries.map Prod.fst).Pairwise (· < ·)) :
    ((put k a entries).map Prod.fst).Pairwise (· < ·) := by
  induction entries with
  | nil => exact List.pairwise_singleton ..
  | cons e rest ih =>
    obtain ⟨he, hrest⟩ := List.pairwise_cons.mp h
    rw [put]
    split
    · next hlt =>
      refine List.pairwise_cons.mpr ⟨fun j hj => ?_, h⟩
      rcases List.mem_cons.mp hj with rfl | hj
      · exact hlt
      · exact Nat.lt_trans hlt (he j hj)
    · next hle =>
      split
      · next hk =>
        rw [hk]
        exact h
      · next hk =>
        refine List.pairwise_cons.mpr ⟨fun j hj => ?_, ih hrest⟩
        rcases mem_keys_put hj with rfl | hj
        · exact Nat.lt_of_le_of_ne (Nat.le_of_not_lt hle) (Ne.symm hk)
        · exact he j hj

theorem get?_insert_number {s : Slots α} (h : s.WellFormed) (a : α) :
    s.get? (s.insert a).1 = none := by
  have hk : (s.insert a).1 ∉ s.keys := h.take_not_used
  cases ha : s.get? (s.insert a).1 with
  | none => rfl
  | some b => exact absurd (mem_keys_of_get? ha) hk

theorem insert_wellFormed {s : Slots α} (h : s.WellFormed) (a : α) :
    (s.insert a).2.WellFormed := by
  have hperm := (put_perm a h.take_not_used).map Prod.fst
  refine Numbering.Tracks.take h (hperm.nodup_iff.mpr ?_) fun k => ?_
  · exact List.nodup_cons.mpr ⟨h.take_not_used, h.used_nodup⟩
  · exact hperm.mem_iff.trans List.mem_cons

theorem keys_erase (s : Slots α) (k : Nat) :
    (s.erase k).keys = s.keys.filter fun j => j ≠ k := by
  rw [keys, keys, erase, List.filter_map]
  rfl

theorem erase_wellFormed {s : Slots α} (h : s.WellFormed) (k : Nat) : (s.erase k).WellFormed := by
  refine Numbering.Tracks.drop h ?_ fun j hj => ?_
  · rw [keys_erase]
    exact h.used_nodup.filter _
  · rw [keys_erase] at hj
    exact (List.mem_filter.mp hj).1

theorem recycle_wellFormed {s : Slots α} (h : s.WellFormed) {a : α} (hk : s.get? k = some a) :
    (s.recycle k).WellFormed := by
  have hkeys : (s.recycle k).keys = s.keys.filter fun j => j ≠ k := keys_erase s k
  refine Numbering.Tracks.giveBack h (mem_keys_of_get? hk) ?_ fun j => ?_
  · rw [hkeys]
    exact h.used_nodup.filter _
  · rw [hkeys, List.mem_filter]
    simp

theorem keys_modify (s : Slots α) (k : Nat) (f : α → α) : (s.modify k f).keys = s.keys := by
  rw [keys, keys, modify, List.map_map]
  refine List.map_congr_left fun e _ => ?_
  simp only [Function.comp_apply]
  split <;> rfl

theorem modify_wellFormed {s : Slots α} (h : s.WellFormed) (k : Nat) (f : α → α) :
    (s.modify k f).WellFormed := by
  rw [WellFormed, keys_modify]
  exact h

/-- A change of one value does not show to a function that is blind to it. -/
theorem map_modify (s : Slots α) (k : Nat) {f e : α → α} (hf : ∀ a, e (f a) = e a) :
    (s.modify k f).map e = s.map e := by
  rw [map, map, modify, List.map_map]
  congr 1
  refine List.map_congr_left fun d _ => ?_
  rw [Function.comp_apply]
  split
  · rw [hf]
  · rfl

theorem keys_map (s : Slots α) (f : α → α) : (s.map f).keys = s.keys := by
  rw [keys, keys, map, List.map_map]
  rfl

theorem map_map_of_eq (s : Slots α) {f g : α → α} (h : ∀ a, g (f a) = g a) :
    (s.map f).map g = s.map g := by
  rw [map, map, map, List.map_map]
  congr 1
  exact List.map_congr_left fun e _ => congrArg (Prod.mk e.1) (h e.2)

theorem map_wellFormed {s : Slots α} (h : s.WellFormed) (f : α → α) : (s.map f).WellFormed := by
  rw [WellFormed, keys_map]
  exact h

end Slots

/-! ## Links -/

namespace Links

variable {l : Link} {ls : Links}

/-- The numbers of the links are the numbers in use. -/
def WellFormed (ls : Links) : Prop :=
  ls.numbers.Tracks (ls.entries.map Prod.fst)

theorem empty_wellFormed : ({} : Links).WellFormed :=
  ⟨.nil, .nil, fun _ h => absurd h List.not_mem_nil, fun _ h => absurd h List.not_mem_nil,
    fun _ h => absurd h List.not_mem_nil⟩

theorem mem_newestFirst : l ∈ ls.newestFirst ↔ ∃ k, (k, l) ∈ ls.entries := by
  simp [newestFirst]

theorem insert_wellFormed (h : ls.WellFormed) (l : Link) : (ls.insert l).WellFormed := by
  refine Numbering.Tracks.take h ?_ fun k => List.mem_cons
  exact List.nodup_cons.mpr ⟨h.take_not_used, h.used_nodup⟩

theorem eq_of_mem_entries (h : ls.WellFormed) {k : Nat} {l' : Link} (hl : (k, l) ∈ ls.entries)
    (hl' : (k, l') ∈ ls.entries) : l = l' := by
  rw [mem_iff_lookup_of_nodup h.used_nodup] at hl hl'
  exact Option.some_inj.mp (hl.symm.trans hl')

/-- Removing distinct numbers that are in use keeps the other links. -/
theorem removeAll_spec (h : ls.WellFormed) {ks : List Nat} (hks : ks.Nodup)
    (hused : ∀ k ∈ ks, k ∈ ls.entries.map Prod.fst) :
    (ks.foldl remove ls).WellFormed ∧
      (ks.foldl remove ls).entries = ls.entries.filter fun e => e.1 ∉ ks := by
  induction ks generalizing ls with
  | nil => exact ⟨h, (List.filter_eq_self.mpr (by simp)).symm⟩
  | cons k ks ih =>
    obtain ⟨hk, hks⟩ := List.nodup_cons.mp hks
    have hentries : (ls.remove k).entries.map Prod.fst =
        (ls.entries.map Prod.fst).filter fun j => j ≠ k := by
      rw [List.filter_map]
      rfl
    have hremove : (ls.remove k).WellFormed := by
      refine Numbering.Tracks.giveBack h (hused k List.mem_cons_self) ?_ fun j => ?_
      · rw [hentries]
        exact h.used_nodup.filter _
      · rw [hentries, List.mem_filter]
        simp
    obtain ⟨hwf, heq⟩ := ih hremove hks fun j hj => by
      rw [hentries, List.mem_filter]
      have hjk : j ≠ k := fun hjk => hk (hjk ▸ hj)
      exact ⟨hused j (List.mem_cons_of_mem k hj), by simpa using hjk⟩
    refine ⟨hwf, ?_⟩
    rw [List.foldl_cons, heq, remove, List.filter_filter]
    refine List.filter_congr fun e _ => ?_
    simp [Bool.and_comm]

private theorem putAll_perm {entries : List (Nat × Link)} (list : List (Nat × Link))
    (h : (entries.map Prod.fst).Nodup) (hnew : ∀ e ∈ entries, e.1 ∉ list.map Prod.fst) :
    (entries.foldl (fun list e => Slots.put e.1 e.2 list) list).Perm (entries ++ list) := by
  induction entries generalizing list with
  | nil => exact .refl _
  | cons e rest ih =>
    obtain ⟨he, hrest⟩ := List.nodup_cons.mp h
    have hput := Slots.put_perm e.2 (hnew e List.mem_cons_self)
    have hfold := ih (Slots.put e.1 e.2 list) hrest fun d hd hmem => by
      rcases List.mem_cons.mp ((hput.map Prod.fst).mem_iff.mp hmem) with hde | hmem
      · exact he (List.mem_map.mpr ⟨d, hd, hde⟩)
      · exact hnew d (List.mem_cons_of_mem e hd) hmem
    exact hfold.trans ((hput.append_left rest).trans List.perm_middle)

theorem byNumber_perm (h : ls.WellFormed) : ls.byNumber.Perm ls.newestFirst := by
  have hperm := putAll_perm [] h.used_nodup fun e _ => List.not_mem_nil
  rw [List.append_nil] at hperm
  exact hperm.map Prod.snd

theorem mem_byNumber (h : ls.WellFormed) : l ∈ ls.byNumber ↔ l ∈ ls.newestFirst :=
  (byNumber_perm h).mem_iff

end Links
end BlockGraph
