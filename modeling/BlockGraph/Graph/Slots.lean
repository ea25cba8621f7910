/-!
Values under numbers.

A number is handed out when a value comes in.  A number that was given back is used again, the one
that was given back last coming first; otherwise the next number is taken.  The values are kept in
the order of their numbers.
-/

namespace BlockGraph

/-- Numbers that are handed out and given back. -/
structure Numbering where
  /-- How many different numbers have been handed out. -/
  count : Nat := 0
  /-- The numbers that were given back, the last one first. -/
  free : List Nat := []

namespace Numbering

def take (n : Numbering) : Nat × Numbering :=
  match n.free with
  | k :: rest => (k, { n with free := rest })
  | [] => (n.count, { n with count := n.count + 1 })

def giveBack (n : Numbering) (k : Nat) : Numbering :=
  { n with free := k :: n.free }

end Numbering

/-- Values under numbers. -/
structure Slots (α : Type) where
  /-- The values with their numbers, in ascending order. -/
  entries : List (Nat × α) := []
  numbers : Numbering := {}

namespace Slots

variable {α : Type}

def get? (s : Slots α) (k : Nat) : Option α :=
  s.entries.lookup k

/-- Puts a value at the place of its number, instead of one that is there. -/
def put (k : Nat) (a : α) : List (Nat × α) → List (Nat × α)
  | [] => [(k, a)]
  | e :: rest =>
    if k < e.1 then (k, a) :: e :: rest
    else if k = e.1 then (k, a) :: rest
    else e :: put k a rest

/-- Puts a value under a number of its own. -/
def insert (s : Slots α) (a : α) : Nat × Slots α :=
  (s.numbers.take.1, ⟨put s.numbers.take.1 a s.entries, s.numbers.take.2⟩)

/-- Removes the value under a number, which is not used again. -/
def erase (s : Slots α) (k : Nat) : Slots α :=
  { s with entries := s.entries.filter fun e => e.1 ≠ k }

/-- Removes the value under a number, which may be used again. -/
def recycle (s : Slots α) (k : Nat) : Slots α :=
  { s.erase k with numbers := s.numbers.giveBack k }

def modify (s : Slots α) (k : Nat) (f : α → α) : Slots α :=
  { s with entries := s.entries.map fun e => if e.1 = k then (e.1, f e.2) else e }

def map (s : Slots α) (f : α → α) : Slots α :=
  { s with entries := s.entries.map fun e => (e.1, f e.2) }

def keys (s : Slots α) : List Nat :=
  s.entries.map Prod.fst

theorem mem_keys_of_get? {s : Slots α} {k : Nat} {a : α} (h : s.get? k = some a) : k ∈ s.keys := by
  simp only [get?] at h
  simp only [keys]
  revert h
  induction s.entries with
  | nil => simp
  | cons e rest ih =>
    obtain ⟨i, a⟩ := e
    by_cases hk : k = i <;> simp_all [List.lookup_cons, beq_false_of_ne]

/-! ## What each change does to the values -/

theorem lookup_put (k j : Nat) (a : α) (entries : List (Nat × α)) :
    (put k a entries).lookup j = if j = k then some a else entries.lookup j := by
  induction entries with
  | nil =>
    by_cases hj : j = k
    · simp [put, hj]
    · simp [put, hj, List.lookup_cons, beq_false_of_ne hj]
  | cons e rest ih =>
    obtain ⟨i, b⟩ := e
    simp only [put]
    split
    · by_cases hj : j = k
      · simp [hj]
      · simp [hj, List.lookup_cons, beq_false_of_ne hj]
    · split
      · rename_i hk
        by_cases hj : j = k
        · simp [hj]
        · simp [hj, ← hk, List.lookup_cons, beq_false_of_ne hj]
      · rename_i hk
        rw [List.lookup_cons, List.lookup_cons, ih]
        by_cases hj : j = k
        · simp [hj, beq_false_of_ne hk]
        · simp [hj]

theorem get?_insert (s : Slots α) (a : α) (k : Nat) :
    (s.insert a).2.get? k = if k = (s.insert a).1 then some a else s.get? k :=
  lookup_put ..

theorem get?_erase (s : Slots α) (k j : Nat) :
    (s.erase k).get? j = if j = k then none else s.get? j := by
  simp only [erase, get?]
  induction s.entries with
  | nil => simp
  | cons e rest ih =>
    obtain ⟨i, a⟩ := e
    by_cases hi : i = k
    · rw [List.filter_cons_of_neg (by simp [hi]), ih, List.lookup_cons]
      by_cases hj : j = k
      · simp [hj]
      · simp [hj, hi, beq_false_of_ne hj]
    · rw [List.filter_cons_of_pos (by simp [hi]), List.lookup_cons, List.lookup_cons, ih]
      by_cases hj : j = i
      · simp [hj, hi]
      · simp [beq_false_of_ne hj]

@[simp]
theorem get?_recycle (s : Slots α) (k j : Nat) : (s.recycle k).get? j = (s.erase k).get? j := rfl

theorem get?_modify (s : Slots α) (k j : Nat) (f : α → α) :
    (s.modify k f).get? j = if j = k then (s.get? j).map f else s.get? j := by
  simp only [modify, get?]
  induction s.entries with
  | nil => simp
  | cons e rest ih =>
    obtain ⟨i, a⟩ := e
    by_cases hi : i = k <;> by_cases hj : j = i <;>
      simp_all [List.lookup_cons, beq_false_of_ne]

theorem get?_map (s : Slots α) (f : α → α) (k : Nat) :
    (s.map f).get? k = (s.get? k).map f := by
  simp only [map, get?]
  induction s.entries with
  | nil => simp
  | cons e rest ih =>
    obtain ⟨i, a⟩ := e
    by_cases hk : k = i <;> simp_all [List.lookup_cons, beq_false_of_ne]

end Slots

end BlockGraph
