import BlockGraph.Proofs.Registry.FreeNames
import Mathlib.Combinatorics.Pigeonhole
import Mathlib.Data.List.TakeWhile

/-!
# How far a search for a free name gets

The names that a search tries end in larger and larger numbers, be it that the number is
counted up or that a digit is added.  So they are all different, and a search fails
only if as many names are taken as it has attempts.

There is one exception.  Counting stops at the largest number that is counted to, and a name
that ends in it is tried again and again.  A search that comes to such a name while it is taken
fails, however few names are taken.
-/

namespace BlockGraph
namespace Naming

variable {name tail candidate placeholder : String} {taken : String → Bool}

/-! ## The number at the end of a name -/

def suffix (name : String) : List Char :=
  (name.toList.reverse.takeWhile Char.isDigit).reverse

/-- What stands before the digits at the end of a name. -/
def stem (name : String) : List Char :=
  (name.toList.reverse.dropWhile Char.isDigit).reverse

def number (name : String) : Nat :=
  decimalValue (suffix name)

theorem suffix_append (name : String) (h : ∀ c ∈ tail.toList, c.isDigit = true) :
    suffix (name ++ tail) = suffix name ++ tail.toList := by
  rw [suffix, String.toList_append, List.reverse_append,
    List.takeWhile_append_of_pos (by simpa using h), List.reverse_append,
    List.reverse_reverse, suffix]

theorem stem_append (name : String) (h : ∀ c ∈ tail.toList, c.isDigit = true) :
    stem (name ++ tail) = stem name := by
  rw [stem, String.toList_append, List.reverse_append,
    List.dropWhile_append_of_pos (by simpa using h), stem]

theorem suffix_of_last {before : List Char} {last : Char} (h : last.isDigit = false) :
    suffix (String.ofList (before ++ [last])) = [] ∧
      stem (String.ofList (before ++ [last])) = before ++ [last] := by
  simp [suffix, stem, String.toList_ofList, h]

theorem stem_last (h : stem name ≠ []) :
    ∃ before last, last.isDigit = false ∧ stem name = before ++ [last] := by
  have hne : name.toList.reverse.dropWhile Char.isDigit ≠ [] := by
    simpa [stem] using h
  obtain ⟨last, before, hcons⟩ := List.exists_cons_of_ne_nil hne
  refine ⟨before.reverse, last, ?_, ?_⟩
  · have hhead := List.head?_dropWhile_not Char.isDigit name.toList.reverse
    rwa [hcons] at hhead
  · rw [stem, hcons, List.reverse_cons]

theorem stem_ne_nil (h : Legal name) : stem name ≠ [] := by
  obtain ⟨first, rest, hname, hfirst, _⟩ := h
  intro hnil
  have hdigits := List.dropWhile_eq_nil_iff.mp (List.reverse_eq_nil_iff.mp hnil)
  have hdigit := hdigits first (by simp [hname])
  rw [isDigit_of_first hfirst] at hdigit
  cases hdigit

theorem isDigit_of_mem_toString {n : Nat} : ∀ c ∈ (toString n).toList, c.isDigit = true := by
  intro c hc
  rw [Nat.toString_eq_ofList_toDigits, String.toList_ofList] at hc
  exact Nat.isDigit_of_mem_toDigits (by decide) (by decide) hc

theorem decimalValue_toString (n : Nat) : decimalValue (toString n).toList = n := by
  rw [Nat.toString_eq_ofList_toDigits, String.toList_ofList]
  exact Nat.ofDigitChars_toDigits (by decide) (by decide)

theorem number_append_two (name : String) : number (name ++ "2") = 10 * number name + 2 := by
  rw [number, suffix_append name (by simp), decimalValue, List.foldl_append]
  rfl

/-- The number that is put after a stem is the number that the name ends in. -/
theorem number_append_toString {before : List Char} {last : Char} (h : last.isDigit = false)
    (n : Nat) : number (String.ofList (before ++ [last]) ++ toString n) = n := by
  rw [number, suffix_append _ isDigit_of_mem_toString, (suffix_of_last h).1, List.nil_append,
    decimalValue_toString]

/-! ## One name more -/

theorem next_eq (name : String) : next name =
    if (suffix name).isEmpty || (stem name).isEmpty || maxSuffix < number name then name ++ "2"
    else String.ofList (stem name) ++ toString (min (number name + 1) maxSuffix) := rfl

theorem number_lt_next (h : number name ≠ maxSuffix) : number name < number (next name) := by
  rw [next_eq]
  split
  · rw [number_append_two]
    omega
  · next hcounted =>
    simp only [Bool.or_eq_true, List.isEmpty_iff, decide_eq_true_eq, not_or] at hcounted
    obtain ⟨⟨_, hstem⟩, hnumber⟩ := hcounted
    obtain ⟨before, last, hlast, heq⟩ := stem_last hstem
    rw [heq, number_append_toString hlast]
    omega

/-- A name that ends in the largest number that is counted to. -/
def Last (name : String) : Prop :=
  ∃ before last, last.isDigit = false ∧
    name = String.ofList (before ++ [last]) ++ toString maxSuffix

theorem last_next (hlegal : Legal name) (h : number name = maxSuffix) : Last (next name) := by
  have hstem := stem_ne_nil hlegal
  have hsuffix : suffix name ≠ [] := by
    intro hnil
    rw [number, hnil] at h
    cases h
  obtain ⟨before, last, hlast, heq⟩ := stem_last hstem
  refine ⟨before, last, hlast, ?_⟩
  rw [next_eq, if_neg (by simp [hsuffix, hstem, h]), heq, h,
    Nat.min_eq_right (Nat.le_succ maxSuffix)]

theorem Last.next_eq_self (h : Last name) : next name = name := by
  obtain ⟨before, last, hlast, rfl⟩ := h
  have hstem : stem (String.ofList (before ++ [last]) ++ toString maxSuffix) =
      before ++ [last] := by
    rw [stem_append _ isDigit_of_mem_toString, (suffix_of_last hlast).2]
  have hsuffix : suffix (String.ofList (before ++ [last]) ++ toString maxSuffix) =
      (toString maxSuffix).toList := by
    rw [suffix_append _ isDigit_of_mem_toString, (suffix_of_last hlast).1, List.nil_append]
  rw [next_eq, hstem, hsuffix, number_append_toString hlast, if_neg (by simp),
    Nat.min_eq_right (Nat.le_succ maxSuffix)]

/-! ## All names of a search -/

/-- The name that a search tries after as many others. -/
def tried (candidate placeholder : String) (k : Nat) : String :=
  next^[k] (sanitize candidate placeholder)

theorem tried_succ (candidate placeholder : String) (k : Nat) :
    tried candidate placeholder (k + 1) = next (tried candidate placeholder k) :=
  Function.iterate_succ_apply' next k _

theorem tried_legal (h : Legal placeholder) (candidate : String) (k : Nat) :
    Legal (tried candidate placeholder k) := by
  induction k with
  | zero => exact sanitize_legal candidate h
  | succ k ih =>
    rw [tried_succ]
    exact next_legal ih

theorem tried_of_last {k : Nat} (h : Last (tried candidate placeholder k)) {j : Nat} (hj : k ≤ j) :
    tried candidate placeholder j = tried candidate placeholder k := by
  induction j, hj using Nat.le_induction with
  | base => rfl
  | succ j _ ih => rw [tried_succ, ih, h.next_eq_self]

/-- Unless the counting has stopped between two names, the later one ends in a larger number. -/
theorem number_tried_lt {i j : Nat} (hij : i < j)
    (h : ∀ k, i ≤ k → k < j → number (tried candidate placeholder k) ≠ maxSuffix) :
    number (tried candidate placeholder i) < number (tried candidate placeholder j) := by
  induction j, hij using Nat.le_induction with
  | base =>
    rw [tried_succ]
    exact number_lt_next (h i (Nat.le_refl i) (Nat.lt_succ_self i))
  | succ j hij ih =>
    rw [tried_succ]
    have hbefore := ih fun k hik hkj => h k hik (Nat.lt_succ_of_lt hkj)
    exact hbefore.trans (number_lt_next (h j (Nat.le_of_lt hij) (Nat.lt_succ_self j)))

/-- A search tries a name twice only if it ends in the largest number. -/
theorem last_of_tried_eq (hp : Legal placeholder) {i j : Nat} (hij : i < j)
    (heq : tried candidate placeholder i = tried candidate placeholder j) :
    Last (tried candidate placeholder i) := by
  by_cases hstop : ∃ k, i ≤ k ∧ k < j ∧ number (tried candidate placeholder k) = maxSuffix
  · obtain ⟨k, _, hkj, hnumber⟩ := hstop
    have hlast : Last (tried candidate placeholder (k + 1)) := by
      rw [tried_succ]
      exact last_next (tried_legal hp candidate k) hnumber
    rwa [heq, tried_of_last hlast hkj]
  · have hlt := @number_tried_lt candidate placeholder i j hij fun k hik hkj hnumber =>
      hstop ⟨k, hik, hkj, hnumber⟩
    rw [heq] at hlt
    exact absurd hlt (Nat.lt_irrefl _)

/-! ## When a search fails -/

theorem firstFree_eq_none_iff {attempts : Nat} :
    firstFree taken attempts name = none ↔ ∀ k < attempts, taken (next^[k] name) = true := by
  induction attempts generalizing name with
  | zero => simp [firstFree]
  | succ attempts ih =>
    rw [firstFree]
    cases htaken : taken name with
    | false =>
      refine iff_of_false (by simp) fun h => ?_
      cases htaken.symm.trans (h 0 (Nat.succ_pos attempts))
    | true =>
      rw [if_pos rfl, ih]
      constructor
      · intro h k hk
        cases k with
        | zero => exact htaken
        | succ k => exact h k (Nat.lt_of_succ_lt_succ hk)
      · exact fun h k hk => h (k + 1) (Nat.succ_lt_succ hk)

/-- A search gives a legal name that is not taken, or all names that it tries are taken. -/
theorem propose_cases (hp : Legal placeholder) (candidate : String) (taken : String → Bool) :
    (∃ name, propose candidate placeholder taken = .ok name ∧ Legal name ∧ taken name = false) ∨
      propose candidate placeholder taken = .error (.nameCollision candidate maxAttempts) ∧
        ∀ k < maxAttempts, taken (tried candidate placeholder k) = true := by
  cases hfree : firstFree taken maxAttempts (sanitize candidate placeholder) with
  | none =>
    refine .inr ⟨?_, firstFree_eq_none_iff.mp hfree⟩
    rw [propose, hfree]
  | some name =>
    have hok : propose candidate placeholder taken = .ok name := by rw [propose, hfree]
    rw [firstFree_eq_head?] at hfree
    exact .inl ⟨name, hok, propose_legal hp hok, (mem_free.mp (List.mem_of_mem_head? hfree)).2⟩

/-- The search has come to a taken name that ends in the largest number. -/
def Stuck (candidate placeholder : String) (taken : String → Bool) : Prop :=
  ∃ k < maxAttempts, Last (tried candidate placeholder k) ∧
    ∀ i ≤ k, taken (tried candidate placeholder i) = true

theorem Stuck.all_taken (h : Stuck candidate placeholder taken) (j : Nat) :
    taken (tried candidate placeholder j) = true := by
  obtain ⟨k, _, hlast, htaken⟩ := h
  rcases Nat.le_total j k with hj | hj
  · exact htaken j hj
  · rw [tried_of_last hlast hj]
    exact htaken k (Nat.le_refl k)

theorem Stuck.propose_error (h : Stuck candidate placeholder taken) :
    propose candidate placeholder taken = .error (.nameCollision candidate maxAttempts) := by
  have hnone : firstFree taken maxAttempts (sanitize candidate placeholder) = none :=
    firstFree_eq_none_iff.mpr fun k _ => h.all_taken k
  rw [propose, hnone]

/-- A search that fails has tried as many different names as it has attempts, or it is stuck. -/
theorem stuck_or_injOn (hp : Legal placeholder)
    (htaken : ∀ k < maxAttempts, taken (tried candidate placeholder k) = true) :
    Stuck candidate placeholder taken ∨
      Set.InjOn (tried candidate placeholder) (Finset.range maxAttempts) := by
  refine or_iff_not_imp_left.mpr fun hstuck i hi j hj heq => ?_
  have hdistinct : ∀ i j, i < j → j < maxAttempts →
      tried candidate placeholder i ≠ tried candidate placeholder j := by
    intro i j hij hj heq
    exact hstuck ⟨i, hij.trans hj, last_of_tried_eq hp hij heq,
      fun k hk => htaken k (hk.trans_lt (hij.trans hj))⟩
  rcases Nat.lt_trichotomy i j with hlt | hsame | hgt
  · exact absurd heq (hdistinct i j hlt (Finset.mem_range.mp hj))
  · exact hsame
  · exact absurd heq.symm (hdistinct j i hgt (Finset.mem_range.mp hi))

/-- With fewer taken names than attempts, a search gives a legal name that is not taken, unless it
comes to a taken name that ends in the largest number that is counted to.  This is the only name
that a search ever tries twice, and a search that does not come to it fails only if as many names
are taken as it has attempts. -/
theorem propose_outcome (hp : Legal placeholder) (candidate : String) :
    (∀ i j, i < j → tried candidate placeholder i = tried candidate placeholder j →
      Last (tried candidate placeholder i)) ∧
    (∀ names : Finset String, names.card < maxAttempts →
      ((∃ name, propose candidate placeholder (fun name => decide (name ∈ names)) = .ok name ∧
        Legal name ∧ name ∉ names) ↔
          ¬ Stuck candidate placeholder fun name => decide (name ∈ names))) ∧
    ∀ taken e, propose candidate placeholder taken = .error e →
      Stuck candidate placeholder taken ∨
        ∃ names : Finset String, names.card = maxAttempts ∧ ∀ name ∈ names, taken name = true := by
  refine ⟨fun i j => last_of_tried_eq hp, fun names hfew => ?_, fun taken e herror => ?_⟩
  · rcases propose_cases hp candidate fun name => decide (name ∈ names) with
      ⟨name, hok, hlegal, hfree⟩ | ⟨herror, htaken⟩
    · have hfree : name ∉ names := by simpa using hfree
      refine iff_of_true ⟨name, hok, hlegal, hfree⟩ fun hstuck => ?_
      cases hok.symm.trans hstuck.propose_error
    · refine iff_of_false ?_ (not_not_intro ?_)
      · rintro ⟨name, hok, _⟩
        cases herror.symm.trans hok
      · refine (stuck_or_injOn hp htaken).resolve_right fun hinj => ?_
        have hcard := Finset.card_le_card_of_injOn _
          (fun k hk => by simpa using htaken k (Finset.mem_range.mp hk)) hinj
        rw [Finset.card_range] at hcard
        exact Nat.not_lt.mpr hcard hfew
  · rcases propose_cases hp candidate taken with ⟨name, hok, _⟩ | ⟨_, htaken⟩
    · cases herror.symm.trans hok
    · refine (stuck_or_injOn hp htaken).imp_right fun hinj => ?_
      refine ⟨(Finset.range maxAttempts).image (tried candidate placeholder), ?_,
        fun name hname => ?_⟩
      · rw [Finset.card_image_of_injOn hinj, Finset.card_range]
      · obtain ⟨k, hk, rfl⟩ := Finset.mem_image.mp hname
        exact htaken k (Finset.mem_range.mp hk)

theorem propose_outcome_shape :
    ∃ name, propose "Shape09" typePlaceholder
      (fun name => decide (name ∈ ({"Shape09"} : Finset String))) = .ok name ∧
        Legal name ∧ name ∉ ({"Shape09"} : Finset String) := by
  have hfirst : tried "Shape09" typePlaceholder 0 = "Shape09" := by cbv
  have hnext : tried "Shape09" typePlaceholder 1 = "Shape10" := by
    have hten : Nat.repr 10 = "10" := by decide
    rw [tried_succ, hfirst]
    simp [next, decimalValue, maxSuffix, hten]
  refine ((propose_outcome typePlaceholder_legal "Shape09").2.1 {"Shape09"}
    (by simp [maxAttempts])).mpr ?_
  rintro ⟨k, _, hlast, htaken⟩
  cases k with
  | zero =>
    have hstays := tried_of_last hlast (Nat.zero_le 1)
    rw [hnext, hfirst] at hstays
    exact absurd hstays (by decide)
  | succ k =>
    have hmem := htaken 1 (Nat.succ_le_succ (Nat.zero_le k))
    rw [hnext] at hmem
    simp at hmem

/-- A single taken name can make a search fail. -/
theorem exists_stuck :
    ∃ names : Finset String, names.card = 1 ∧
      propose "A18446744073709551615" typePlaceholder (fun name => decide (name ∈ names)) =
        .error (.nameCollision "A18446744073709551615" maxAttempts) := by
  refine ⟨{"A18446744073709551615"}, Finset.card_singleton _, Stuck.propose_error
    ⟨0, by decide, ⟨[], 'A', rfl, ?_⟩, fun i hi => ?_⟩⟩
  · cbv
  · obtain rfl := Nat.le_zero.mp hi
    have hfirst : tried "A18446744073709551615" typePlaceholder 0 = "A18446744073709551615" := by
      cbv
    simp [hfirst]

end Naming
end BlockGraph
