import BlockGraph.Ty.Token
import Mathlib.Data.List.Chain
import Mathlib.Data.List.TakeWhile

/-!
# Words and tokens

`Lexed` says how a text splits into tokens: blanks separate them, and a word goes on
as long as there are word characters.  It is a relation, with one rule for each kind
of token, and there is no rule for junk.  The scan finds this split if there is one,
and meets junk otherwise.

Of the classes of characters, the split depends on two facts.  No blank, bracket or
dash is a word character, and no character is both uppercase and lowercase.
-/

namespace BlockGraph

/-! ## Classes of characters -/

namespace CharSet

/-- Whether every range of the first table lies apart from those of the second, found by going
through both once. -/
def apart : List (Nat × Nat) → List (Nat × Nat) → Bool
  | [], _ => true
  | a :: as, bs =>
    ((bs.dropWhile fun b => b.2 < a.1).head?.all fun b => a.2 < b.1) &&
      apart as (bs.dropWhile fun b => b.2 < a.1)

/-- Ranges that were passed stay below all ranges to come, and those that were not passed are above
the present one if the first of them is. -/
theorem lt_or_lt_of_apart {as bs : List (Nat × Nat)} (has : as.Pairwise fun a a' => a.1 < a'.1)
    (hbs : bs.Pairwise fun b b' => b.1 < b'.1) (h : apart as bs = true) :
    ∀ a ∈ as, ∀ b ∈ bs, b.2 < a.1 ∨ a.2 < b.1 := by
  induction as generalizing bs with
  | nil => exact fun a ha => absurd ha List.not_mem_nil
  | cons a as ih =>
    obtain ⟨hfirst, has⟩ := List.pairwise_cons.mp has
    rw [apart, Bool.and_eq_true] at h
    obtain ⟨hhead, hrest⟩ := h
    have hsplit := List.takeWhile_append_dropWhile (p := fun b : Nat × Nat => decide (b.2 < a.1))
      (l := bs)
    have hdrop := hbs.sublist (List.dropWhile_sublist fun b : Nat × Nat => decide (b.2 < a.1))
    intro a' ha' b hb
    rw [← hsplit, List.mem_append] at hb
    rcases hb with hb | hb
    · have hlt : b.2 < a.1 := by simpa using List.mem_takeWhile_imp hb
      rcases List.mem_cons.mp ha' with rfl | ha'
      · exact .inl hlt
      · exact .inl (Nat.lt_trans hlt (hfirst a' ha'))
    · rcases List.mem_cons.mp ha' with rfl | ha'
      · cases hlist : bs.dropWhile fun b => decide (b.2 < a'.1) with
        | nil =>
          rw [hlist] at hb
          exact absurd hb List.not_mem_nil
        | cons b₀ rest =>
          rw [hlist] at hb hdrop hhead
          have hlt : a'.2 < b₀.1 := by simpa using hhead
          rcases List.mem_cons.mp hb with rfl | hb
          · exact .inr hlt
          · exact .inr (Nat.lt_trans hlt ((List.pairwise_cons.mp hdrop).1 b hb))
      · exact ih has hdrop hrest a' ha' b hb

/-- Below the ranges that a table goes on with, only the first ones count. -/
theorem contains_eq_of_lt {s : CharSet} (n : Nat) {bound : Nat}
    (h : ((s.ranges.drop n).all fun r => bound ≤ r.1) = true) {c : Char} (hc : c.toNat < bound) :
    s.contains c = (s.ranges.take n).any fun r => r.1 ≤ c.toNat && c.toNat ≤ r.2 := by
  have hnone : ((s.ranges.drop n).any fun r => decide (r.1 ≤ c.toNat) && decide (c.toNat ≤ r.2)) =
      false := by
    rw [List.any_eq_false]
    intro r hr
    have hle : bound ≤ r.1 := by simpa using List.all_eq_true.mp h r hr
    simp only [Bool.and_eq_true, decide_eq_true_eq]
    omega
  rw [contains, ← List.take_append_drop n s.ranges, List.any_append, hnone, Bool.or_false,
    List.take_append_drop]

end CharSet

namespace Text

variable {c : Char}

theorem isUpper_eq (c : Char) : c.isUpper = decide (65 ≤ c.toNat ∧ c.toNat ≤ 90) :=
  rfl

theorem isLower_eq (c : Char) : c.isLower = (decide (97 ≤ c.toNat) && decide (c.toNat ≤ 122)) :=
  rfl

theorem isDigit_eq (c : Char) : c.isDigit = (decide (48 ≤ c.toNat) && decide (c.toNat ≤ 57)) :=
  rfl

theorem isAlphanum_eq (c : Char) : c.isAlphanum = (c.isUpper || c.isLower || c.isDigit) :=
  rfl

theorem isUppercase_ascii (hc : c.toNat < 128) : isUppercase c = c.isUpper := by
  have hlow : isUppercase c = [(0x41, 0x5a)].any fun r => r.1 ≤ c.toNat && c.toNat ≤ r.2 :=
    CharSet.contains_eq_of_lt 1 (by decide +kernel) hc
  simp [hlow, isUpper_eq]

theorem isLowercase_ascii (hc : c.toNat < 128) : isLowercase c = c.isLower := by
  have hlow : isLowercase c = [(0x61, 0x7a)].any fun r => r.1 ≤ c.toNat && c.toNat ≤ r.2 :=
    CharSet.contains_eq_of_lt 1 (by decide +kernel) hc
  simp [hlow, isLower_eq]

theorem isAlphanumeric_ascii (hc : c.toNat < 128) : isAlphanumeric c = c.isAlphanum := by
  have hlow : isAlphanumeric c = [(0x30, 0x39), (0x41, 0x5a), (0x61, 0x7a)].any fun r =>
      r.1 ≤ c.toNat && c.toNat ≤ r.2 :=
    CharSet.contains_eq_of_lt 3 (by decide +kernel) hc
  simp [hlow, isAlphanum_eq, isUpper_eq, isLower_eq, isDigit_eq, Bool.or_comm]

/-- The two tables of letters in order, so that one walk tells them apart. -/
theorem upperChars_apart_lowerChars :
    ∀ a ∈ upperChars.ranges, ∀ b ∈ lowerChars.ranges, b.2 < a.1 ∨ a.2 < b.1 := by
  have hupper : upperChars.ranges.IsChain fun a a' => a.1 < a'.1 := by decide +kernel
  have hlower : lowerChars.ranges.IsChain fun b b' => b.1 < b'.1 := by decide +kernel
  have : IsTrans (Nat × Nat) fun a b => a.1 < b.1 := ⟨fun _ _ _ => Nat.lt_trans⟩
  exact CharSet.lt_or_lt_of_apart hupper.pairwise hlower.pairwise (by decide +kernel)

theorem not_isLowercase_of_isUppercase (h : isUppercase c = true) : isLowercase c = false := by
  rw [← Bool.not_eq_true]
  intro h'
  obtain ⟨a, ha, hfrom, hto⟩ := (CharSet.contains_iff _ c).mp h
  obtain ⟨b, hb, hfrom', hto'⟩ := (CharSet.contains_iff _ c).mp h'
  have := upperChars_apart_lowerChars a ha b hb
  omega

end Text

/-! ## The split into tokens -/

namespace Token

variable {c : Char} {cs word : List Char} {offset : Nat}

/-- How a text splits into tokens.  A word is as long as it can be: what follows it does not start
with a word character. -/
inductive Lexed : List Char → List Token → Prop
  | nil : Lexed [] []
  | blank {c : Char} {cs : List Char} {ts : List Token} (hc : isSpace c = true)
      (rest : Lexed cs ts) : Lexed (c :: cs) ts
  | arrow {cs : List Char} {ts : List Token} (rest : Lexed cs ts) :
      Lexed ('-' :: '>' :: cs) (.arrow :: ts)
  | lparen {cs : List Char} {ts : List Token} (rest : Lexed cs ts) :
      Lexed ('(' :: cs) (.lparen :: ts)
  | rparen {cs : List Char} {ts : List Token} (rest : Lexed cs ts) :
      Lexed (')' :: cs) (.rparen :: ts)
  | name {c : Char} {word cs : List Char} {ts : List Token}
      (hword : ∀ d ∈ c :: word, isWordChar d = true) (hend : ∀ d ∈ cs.head?, isWordChar d = false)
      (hc : c = '_' ∨ Text.isUppercase c = true) (rest : Lexed cs ts) :
      Lexed (c :: word ++ cs) (.name (String.ofList (c :: word)) :: ts)
  | var {c : Char} {word cs : List Char} {ts : List Token}
      (hword : ∀ d ∈ c :: word, isWordChar d = true) (hend : ∀ d ∈ cs.head?, isWordChar d = false)
      (hc : Text.isLowercase c = true) (rest : Lexed cs ts) :
      Lexed (c :: word ++ cs) (.var (String.ofList (c :: word)) :: ts)

theorem isWordChar_ascii (hc : c.toNat < 128) : isWordChar c = (c = '_' || c.isAlphanum) := by
  rw [isWordChar, Text.isAlphanumeric_ascii hc]

theorem ofWord_of_upper (hc : c = '_' ∨ Text.isUppercase c = true) :
    ofWord c word = .name (String.ofList (c :: word)) := by
  simp [ofWord, hc]

theorem ofWord_of_lower (hc : Text.isLowercase c = true) :
    ofWord c word = .var (String.ofList (c :: word)) := by
  have hne : c ≠ '_' := by
    rintro rfl
    rw [Text.isLowercase_ascii (by decide)] at hc
    exact absurd hc (by decide)
  have hupper : Text.isUppercase c = false := by
    rw [← Bool.not_eq_true]
    intro h
    simp [Text.not_isLowercase_of_isUppercase h] at hc
  simp [ofWord, hne, hupper, hc]

/-- What scanning does where no arrow starts. -/
theorem scan_cons (h : ∀ tail, c :: cs ≠ '-' :: '>' :: tail) :
    scan offset (c :: cs) =
      if isSpace c then scan (offset + 1) cs
      else if c = '(' then ⟨lparen, offset⟩ :: scan (offset + 1) cs
      else if c = ')' then ⟨rparen, offset⟩ :: scan (offset + 1) cs
      else if isWordChar c then
        ⟨ofWord c (cs.takeWhile isWordChar), offset⟩ ::
          scan (offset + byteSize (c :: cs.takeWhile isWordChar)) (cs.dropWhile isWordChar)
      else [⟨junk, offset⟩] := by
  rw [scan]
  rintro tail rfl rfl
  exact h tail rfl

theorem scan_blank (hc : isSpace c = true) : scan offset (c :: cs) = scan (offset + 1) cs := by
  rw [scan_cons, if_pos hc]
  rintro tail ⟨⟩
  exact absurd hc (by decide)

theorem scan_lparen :
    scan offset ('(' :: cs) = ⟨lparen, offset⟩ :: scan (offset + 1) cs := by
  rw [scan_cons (by simp), if_neg (by decide), if_pos rfl]

theorem scan_rparen :
    scan offset (')' :: cs) = ⟨rparen, offset⟩ :: scan (offset + 1) cs := by
  rw [scan_cons (by simp), if_neg (by decide), if_neg (by decide), if_pos rfl]

/-- A run of word characters is scanned as one word, up to where it ends. -/
theorem scan_word (hword : ∀ d ∈ c :: word, isWordChar d = true)
    (hend : ∀ d ∈ cs.head?, isWordChar d = false) :
    scan offset (c :: word ++ cs) =
      ⟨ofWord c word, offset⟩ :: scan (offset + byteSize (c :: word)) cs := by
  have hc := hword c List.mem_cons_self
  have hne {d : Char} (hascii : d.toNat < 128) (hd : (d = '_' || d.isAlphanum) = false) :
      c ≠ d := by
    rintro rfl
    rw [isWordChar_ascii hascii, hd] at hc
    exact Bool.false_ne_true hc
  have hspace : isSpace c = false := by
    simp [isSpace, hne (d := ' ') (by decide) (by decide), hne (d := '\t') (by decide) (by decide),
      hne (d := '\r') (by decide) (by decide), hne (d := '\n') (by decide) (by decide)]
  have hall : ∀ d ∈ word, isWordChar d = true := fun d hd => hword d (List.mem_cons_of_mem _ hd)
  have htake : (word ++ cs).takeWhile isWordChar = word := by
    rw [List.takeWhile_append_of_pos hall]
    cases cs <;> simp_all
  have hdrop : (word ++ cs).dropWhile isWordChar = cs := by
    rw [List.dropWhile_append_of_pos hall]
    cases cs <;> simp_all
  rw [List.cons_append, scan_cons, htake, hdrop, hspace, if_neg Bool.false_ne_true,
    if_neg (hne (by decide) (by decide)), if_neg (hne (by decide) (by decide)), if_pos hc]
  intro tail h
  exact hne (d := '-') (by decide) (by decide) (List.cons.inj h).1

theorem word_split (cs : List Char) (hc : isWordChar c = true) :
    (∀ d ∈ c :: cs.takeWhile isWordChar, isWordChar d = true) ∧
      ∀ d ∈ (cs.dropWhile isWordChar).head?, isWordChar d = false := by
  constructor
  · intro d hd
    rcases List.mem_cons.mp hd with rfl | hd
    · exact hc
    · exact List.mem_takeWhile_imp hd
  · intro d hd
    have hnot := List.head?_dropWhile_not isWordChar cs
    rw [Option.mem_def.mp hd] at hnot
    exact hnot

/-- The scan finds the tokens that a text splits into. -/
theorem Lexed.scan_eq {ts : List Token} (h : Lexed cs ts) (offset : Nat) :
    (scan offset cs).map Lexeme.token = ts := by
  induction h generalizing offset with
  | nil => rw [scan, List.map_nil]
  | blank hc _ ih => rw [scan_blank hc, ih]
  | arrow _ ih => rw [scan, List.map_cons, ih]
  | lparen _ ih => rw [scan_lparen, List.map_cons, ih]
  | rparen _ ih => rw [scan_rparen, List.map_cons, ih]
  | name hword hend hc _ ih => rw [scan_word hword hend, List.map_cons, ih, ofWord_of_upper hc]
  | var hword hend hc _ ih => rw [scan_word hword hend, List.map_cons, ih, ofWord_of_lower hc]

theorem Lexed.unique {ts ts' : List Token} (h : Lexed cs ts) (h' : Lexed cs ts') : ts = ts' :=
  (h.scan_eq 0).symm.trans (h'.scan_eq 0)

theorem lexed_scan (h : junk ∉ (scan offset cs).map Lexeme.token) :
    Lexed cs ((scan offset cs).map Lexeme.token) := by
  induction offset, cs using scan.induct with
  | case1 offset =>
    rw [scan]
    exact .nil
  | case2 offset cs ih =>
    rw [scan] at h ⊢
    exact .arrow (ih fun hmem => h (List.mem_cons_of_mem _ hmem))
  | case3 offset c cs _ hc ih =>
    rw [scan_blank hc] at h ⊢
    exact .blank hc (ih h)
  | case4 offset cs _ _ ih =>
    rw [scan_lparen] at h ⊢
    exact .lparen (ih fun hmem => h (List.mem_cons_of_mem _ hmem))
  | case5 offset cs _ _ _ ih =>
    rw [scan_rparen] at h ⊢
    exact .rparen (ih fun hmem => h (List.mem_cons_of_mem _ hmem))
  | case6 offset c cs _ _ _ _ hc tail ih =>
    obtain ⟨hword, hend⟩ := word_split cs hc
    have hsplit : c :: cs = c :: tail ++ cs.dropWhile isWordChar := by
      rw [List.cons_append, List.takeWhile_append_dropWhile]
    rw [hsplit, scan_word hword hend, List.map_cons] at h ⊢
    have hrest := ih fun hmem => h (List.mem_cons_of_mem _ hmem)
    by_cases hupper : c = '_' ∨ Text.isUppercase c = true
    · rw [ofWord_of_upper hupper]
      exact .name hword hend hupper hrest
    · by_cases hlower : Text.isLowercase c = true
      · rw [ofWord_of_lower hlower]
        exact .var hword hend hlower hrest
      · have hjunk : ofWord c tail = junk := by simp [ofWord, hupper, hlower]
        exact absurd (hjunk ▸ List.mem_cons_self) h
  | case7 offset c cs harrow hspace hopen hclose hc =>
    rw [scan_cons, if_neg hspace, if_neg hopen, if_neg hclose, if_neg hc] at h
    · exact absurd List.mem_cons_self h
    · rintro tail ⟨⟩
      exact harrow tail rfl rfl

end Token
end BlockGraph
