import BlockGraph.Proofs.Ty.Printing

/-!
# Where a text is refused

A text that is not a type is refused at the first place where no type can go on.  The tokens before
that place are the beginning of a type, and what stands there is the end of the text, or a token
that no type has next, or no token at all.

`Leads` says which tokens a text starts with and what is left after them, so it is also about
texts that do not split into tokens as a whole.  That the tokens before the place can go on
is a property of the reader: whatever its state, it can be led to the end of a type by a variable
where an operand is due and a bracket for each one that is open.
-/

namespace BlockGraph

namespace Token

/-! ## The tokens that a text leads with -/

/-- The token that a text starts with, and what is left after it.  A word is as long as it can
be. -/
inductive Starts : List Char → Token → List Char → Prop
  | arrow {cs : List Char} : Starts ('-' :: '>' :: cs) .arrow cs
  | lparen {cs : List Char} : Starts ('(' :: cs) .lparen cs
  | rparen {cs : List Char} : Starts (')' :: cs) .rparen cs
  | name {c : Char} {word cs : List Char} (hword : ∀ d ∈ c :: word, isWordChar d = true)
      (hend : EndsWord cs) (hc : c = '_' ∨ Text.isUppercase c = true) :
      Starts (c :: word ++ cs) (.name (String.ofList (c :: word))) cs
  | var {c : Char} {word cs : List Char} (hword : ∀ d ∈ c :: word, isWordChar d = true)
      (hend : EndsWord cs) (hc : Text.isLowercase c = true) :
      Starts (c :: word ++ cs) (.var (String.ofList (c :: word))) cs

/-- The tokens that a text leads with, and what is left after them and the blanks that follow. -/
inductive Leads : List Char → List Token → List Char → Prop
  | none {cs : List Char} : Leads cs [] (cs.dropWhile isSpace)
  | more {cs cs' rest : List Char} {t : Token} {ts : List Token}
      (h : Starts (cs.dropWhile isSpace) t cs') (hrest : Leads cs' ts rest) :
      Leads cs (t :: ts) rest

variable {cs cs' rest : List Char} {t : Token} {ts : List Token} {offset : Nat}

theorem byteSize_eq (cs : List Char) : byteSize cs = (String.ofList cs).utf8ByteSize := by
  induction cs with
  | nil => rfl
  | cons c cs ih =>
    rw [byteSize, ih, String.ofList_cons, String.utf8ByteSize_append, String.utf8ByteSize_singleton]

theorem byteSize_append (cs ds : List Char) :
    byteSize (cs ++ ds) = byteSize cs + byteSize ds := by
  rw [byteSize_eq, String.ofList_append, String.utf8ByteSize_append, ← byteSize_eq, ← byteSize_eq]

/-- What a token takes of the text spells it also before another rest, if that ends the word where
the present one does. -/
theorem Starts.lexed (h : Starts cs t rest) :
    ∃ taken, cs = taken ++ rest ∧
      (∀ offset, scan offset cs = ⟨t, offset⟩ :: scan (offset + byteSize taken) rest) ∧
      ∀ ds us, (EndsWord rest → EndsWord ds) → Lexed ds us → Lexed (taken ++ ds) (t :: us) := by
  cases h with
  | arrow =>
    exact ⟨['-', '>'], rfl, fun _ => by rw [scan]; rfl, fun _ _ _ hds => .arrow hds⟩
  | lparen => exact ⟨['('], rfl, fun _ => scan_lparen, fun _ _ _ hds => .lparen hds⟩
  | rparen => exact ⟨[')'], rfl, fun _ => scan_rparen, fun _ _ _ hds => .rparen hds⟩
  | @name c word _ hword hend hc =>
    refine ⟨c :: word, rfl, fun _ => ?_, fun _ _ hends hds => .name hword (hends hend) hc hds⟩
    rw [scan_word hword hend, ofWord_of_upper hc]
  | @var c word _ hword hend hc =>
    refine ⟨c :: word, rfl, fun _ => ?_, fun _ _ hends hds => .var hword (hends hend) hc hds⟩
    rw [scan_word hword hend, ofWord_of_lower hc]

theorem endsWord_append {ds : List Char} (h : EndsWord (cs ++ rest)) (hds : EndsWord ds) :
    EndsWord (cs ++ ds) := by
  cases cs with
  | nil => exact hds
  | cons c cs => exact endsWord_cons.mpr (endsWord_cons.mp h)

theorem Leads.spells (h : Leads cs ts rest) : ∃ taken, cs = taken ++ rest ∧ Spells taken ts := by
  induction h with
  | @none cs =>
    refine ⟨cs.takeWhile isSpace, List.takeWhile_append_dropWhile.symm, ?_⟩
    have hblank : Spells (cs.takeWhile isSpace ++ []) [] :=
      Spells.nil.blanks fun d hd => List.mem_takeWhile_imp hd
    rwa [List.append_nil] at hblank
  | @more cs cs' rest t ts hstart _ ih =>
    obtain ⟨word, hcs, _, hword⟩ := hstart.lexed
    obtain ⟨taken, rfl, htaken⟩ := ih
    have hspells : Spells (word ++ taken) (t :: ts) := by
      intro ds us hds hlexed
      rw [List.append_assoc, List.cons_append]
      exact hword _ _ (fun hend => endsWord_append hend hds) (htaken ds us hds hlexed)
    refine ⟨cs.takeWhile isSpace ++ (word ++ taken), ?_,
      hspells.blanks fun d hd => List.mem_takeWhile_imp hd⟩
    rw [List.append_assoc, List.append_assoc, ← hcs, List.takeWhile_append_dropWhile]

/-! ## What the scan lists -/

theorem scan_blanks (offset : Nat) (cs : List Char) :
    scan offset cs =
      scan (offset + byteSize (cs.takeWhile isSpace)) (cs.dropWhile isSpace) := by
  induction cs generalizing offset with
  | nil => rfl
  | cons c cs ih =>
    by_cases hc : isSpace c = true
    · have hsize : c.utf8Size = 1 := by
        have hblank : c = ' ' ∨ c = '\t' ∨ c = '\r' ∨ c = '\n' := by
          simpa [isSpace, or_assoc] using hc
        rcases hblank with rfl | rfl | rfl | rfl <;> rfl
      rw [scan_blank hc, ih, List.takeWhile_cons_of_pos hc, List.dropWhile_cons_of_pos hc, byteSize,
        hsize, Nat.add_assoc]
    · rw [List.takeWhile_cons_of_neg hc, List.dropWhile_cons_of_neg hc, byteSize, Nat.add_zero]

/-- Where a text starts with something else than a blank, the scan lists the token that it starts
with. -/
theorem scan_nonblank {c : Char} (offset : Nat) (cs : List Char) (hspace : isSpace c = false) :
    ∃ t lexemes, scan offset (c :: cs) = ⟨t, offset⟩ :: lexemes ∧
      (t ≠ .junk → ∃ rest, Starts (c :: cs) t rest) := by
  by_cases harrow : ∃ tail, c :: cs = '-' :: '>' :: tail
  · obtain ⟨tail, hcs⟩ := harrow
    rw [hcs, scan]
    exact ⟨_, _, rfl, fun _ => ⟨tail, .arrow⟩⟩
  rw [scan_cons fun tail htail => harrow ⟨tail, htail⟩, hspace, if_neg Bool.false_ne_true]
  split
  · next hc => exact ⟨_, _, rfl, fun _ => ⟨cs, hc ▸ .lparen⟩⟩
  split
  · next hc => exact ⟨_, _, rfl, fun _ => ⟨cs, hc ▸ .rparen⟩⟩
  split
  · next hc =>
    refine ⟨_, _, rfl, fun hjunk => ⟨cs.dropWhile isWordChar, ?_⟩⟩
    obtain ⟨hword, hend⟩ := word_split cs hc
    have hsplit : c :: cs = c :: cs.takeWhile isWordChar ++ cs.dropWhile isWordChar := by
      rw [List.cons_append, List.takeWhile_append_dropWhile]
    rw [hsplit]
    by_cases hupper : c = '_' ∨ Text.isUppercase c = true
    · rw [ofWord_of_upper hupper]
      exact .name hword hend hupper
    · by_cases hlower : Text.isLowercase c = true
      · rw [ofWord_of_lower hlower]
        exact .var hword hend hlower
      · exact absurd (by simp [ofWord, hupper, hlower]) hjunk
  · exact ⟨_, _, rfl, fun hjunk => absurd rfl hjunk⟩

theorem starts_of_scan {lexeme : Lexeme} {lexemes : List Lexeme}
    (hblank : ∀ c ∈ cs.head?, isSpace c = false) (h : scan offset cs = lexeme :: lexemes) :
    lexeme.offset = offset ∧
      (lexeme.token ≠ .junk → ∃ rest, Starts cs lexeme.token rest) := by
  cases cs with
  | nil =>
    rw [scan] at h
    cases h
  | cons c cs =>
    obtain ⟨t, _, hscan, hstart⟩ := scan_nonblank offset cs (hblank c rfl)
    cases hscan.symm.trans h
    exact ⟨rfl, hstart⟩

theorem eq_nil_of_scan (hblank : ∀ c ∈ cs.head?, isSpace c = false) (h : scan offset cs = []) :
    cs = [] := by
  cases cs with
  | nil => rfl
  | cons c cs =>
    obtain ⟨_, _, hscan, _⟩ := scan_nonblank offset cs (hblank c rfl)
    cases hscan.symm.trans h

/-- The text leads with the tokens that the scan lists, up to the first junk, and what is left is
scanned from where they end. -/
theorem leads_of_scan {before after : List Lexeme} (h : scan offset cs = before ++ after)
    (hjunk : .junk ∉ before.map Lexeme.token) :
    ∃ taken rest, cs = taken ++ rest ∧ Leads cs (before.map Lexeme.token) rest ∧
      (∀ c ∈ rest.head?, isSpace c = false) ∧ scan (offset + byteSize taken) rest = after := by
  have hhead (cs : List Char) : ∀ c ∈ (cs.dropWhile isSpace).head?, isSpace c = false := by
    intro c hc
    have hnot := List.head?_dropWhile_not isSpace cs
    rwa [Option.mem_def.mp hc] at hnot
  induction before generalizing offset cs with
  | nil =>
    refine ⟨cs.takeWhile isSpace, _, List.takeWhile_append_dropWhile.symm, .none, hhead cs, ?_⟩
    rw [← scan_blanks, h, List.nil_append]
  | cons lexeme before ih =>
    rw [List.map_cons, List.mem_cons, not_or] at hjunk
    rw [scan_blanks, List.cons_append] at h
    obtain ⟨_, hstart⟩ := starts_of_scan (hhead cs) h
    obtain ⟨rest, hstart⟩ := hstart (Ne.symm hjunk.1)
    obtain ⟨word, hcs, hscan, _⟩ := hstart.lexed
    rw [hscan, List.cons.injEq] at h
    obtain ⟨taken, rest', rfl, hleads, hrest, hafter⟩ := ih h.2 hjunk.2
    refine ⟨cs.takeWhile isSpace ++ word ++ taken, rest', ?_, .more hstart hleads, hrest, ?_⟩
    · rw [List.append_assoc, List.append_assoc, ← hcs, List.takeWhile_append_dropWhile]
    · rw [← hafter, byteSize_append, byteSize_append, Nat.add_assoc, Nat.add_assoc, Nat.add_assoc]

/-- No token but the one that the scan lists stands at the start of a text. -/
theorem Starts.eq_of_scan {lexeme : Lexeme} {lexemes : List Lexeme} (h : Starts cs t rest)
    (hscan : scan offset cs = lexeme :: lexemes) : lexeme.token = t := by
  obtain ⟨_, _, hlist, _⟩ := h.lexed
  rw [hlist, List.cons.injEq] at hscan
  rw [← hscan.1]

end Token

namespace Grammar

/-- The tokens of a text that is a type. -/
def IsType (ts : List Token) : Prop :=
  ∃ (text : List Char) (t : NamedTy), Token.Lexed text ts ∧ Derives .type ts t

/-- The tokens that the text of a type can start with. -/
def Viable (ts : List Token) : Prop :=
  ∃ us, IsType (ts ++ us)

/-- After the tokens, no type goes on with the text: it ends before the type does, or it starts with
a token that no type has there, or with no token at all. -/
def Stops (ts : List Token) (rest : List Char) : Prop :=
  (rest = [] ∧ ¬ IsType ts) ∨
    (rest ≠ [] ∧ ∀ t rest', Token.Starts rest t rest' → ¬ Viable (ts ++ [t]))

end Grammar

namespace Reader

variable {s : State} {ts : List Token}

open Grammar

/-! ## From any state to the end of a type -/

/-- Outside of an open bracket stands an operand that takes what is in the brackets. -/
def State.Open (s : State) : Prop :=
  ∀ level ∈ s.outer, level.operand.takesAtom = true

theorem Operand.addAtom_of_takesAtom {operand : Operand} (h : operand.takesAtom = true)
    (t : NamedTy) :
    ∃ operand', operand.addAtom t = some operand' ∧ ∃ u, operand'.value? = some u := by
  cases operand with
  | vacant => exact ⟨_, rfl, _, rfl⟩
  | applied name args => exact ⟨_, rfl, _, rfl⟩
  | whole t => cases h

theorem State.Open.step {s' : State} {t : Token} (h : s.Open) (hstep : s.step t = some s') :
    s'.Open := by
  cases t with
  | name word =>
    obtain ⟨_, _, rfl⟩ := Option.map_eq_some_iff.mp hstep
    exact h
  | var word =>
    obtain ⟨_, _, rfl⟩ := Option.map_eq_some_iff.mp hstep
    exact h
  | arrow =>
    obtain ⟨_, _, rfl⟩ := Option.map_eq_some_iff.mp hstep
    exact h
  | lparen =>
    simp only [State.step] at hstep
    split at hstep
    next htakes =>
      cases hstep
      exact List.forall_mem_cons.mpr ⟨htakes, h⟩
    · cases hstep
  | rparen =>
    simp only [State.step] at hstep
    split at hstep
    next t level outer hvalue houter =>
      obtain ⟨_, _, rfl⟩ := Option.map_eq_some_iff.mp hstep
      intro l hl
      exact h l (houter ▸ List.mem_cons_of_mem _ hl)
    · cases hstep
  | junk => cases hstep

theorem State.Open.feed {s' : State} (h : s.Open) (hfeed : s.feed ts = some s') : s'.Open := by
  induction ts generalizing s with
  | nil =>
    cases hfeed
    exact h
  | cons t ts ih =>
    obtain ⟨s₁, hstep, hfeed⟩ := Option.bind_eq_some_iff.mp hfeed
    exact ih (h.step hstep) hfeed

/-- A bracket for each one that is open ends the type, where no operand is due. -/
theorem State.Open.feed_brackets {level : Level} {outer : List Level}
    (h : State.Open ⟨level, outer⟩) {t : NamedTy} (hvalue : level.value? = some t) :
    ∃ s', State.feed ⟨level, outer⟩ (List.replicate outer.length .rparen) = some s' ∧
      ∃ u, s'.result? = some u := by
  induction outer generalizing level t with
  | nil => exact ⟨⟨level, []⟩, rfl, t, hvalue⟩
  | cons first outer ih =>
    obtain ⟨hfirst, hrest⟩ := List.forall_mem_cons.mp h
    obtain ⟨operand, hadd, u, hu⟩ := Operand.addAtom_of_takesAtom hfirst t
    have hstep : State.step ⟨level, first :: outer⟩ .rparen =
        some ⟨{ first with operand }, outer⟩ := by
      simp [State.step, hvalue, hadd]
    have hlevel : Level.value? { first with operand } = some (.curried first.domains u) := by
      simp [Level.value?, hu]
    rw [List.length_cons, List.replicate_succ, State.feed_cons, hstep]
    exact ih hrest hlevel

/-- What completes the type that a state has been reached for. -/
def State.closing (s : State) : List Token :=
  (if s.level.operand.value?.isSome then [] else [.var "a"]) ++
    List.replicate s.outer.length .rparen

theorem State.Open.feed_closing (h : s.Open) :
    ∃ s', s.feed s.closing = some s' ∧ ∃ t, s'.result? = some t := by
  obtain ⟨⟨domains, operand⟩, outer⟩ := s
  cases operand with
  | vacant =>
    have hopen : State.Open ⟨⟨domains, .whole (.var "a")⟩, outer⟩ := h
    exact hopen.feed_brackets (t := .curried domains (.var "a")) rfl
  | applied name args => exact h.feed_brackets (t := .curried domains (.lit name args)) rfl
  | whole t => exact h.feed_brackets (t := .curried domains t) rfl

/-- The completion can be written after any text. -/
theorem State.lexed_closing (s : State) :
    ∃ text, Token.EndsWord text ∧ Token.Lexed text s.closing := by
  have hbrackets (count : Nat) :
      Token.Lexed (List.replicate count ')') (List.replicate count .rparen) := by
    induction count with
    | zero => exact .nil
    | succ count ih => exact .rparen ih
  have hends (count : Nat) : Token.EndsWord (List.replicate count ')') := by
    cases count with
    | zero => simp [Token.EndsWord]
    | succ count =>
      exact Token.endsWord_cons.mpr (by rw [Token.isWordChar_ascii (by decide)]; decide)
  rw [State.closing]
  split
  · exact ⟨_, hends s.outer.length, hbrackets s.outer.length⟩
  · refine ⟨' ' :: ("a".toList ++ List.replicate s.outer.length ')'), ?_, .blank rfl ?_⟩
    · exact Token.endsWord_cons.mpr (Token.isWordChar_of_isSpace rfl)
    · exact Token.Spells.var (nthName_isVar 0) _ _ (hends _) (hbrackets _)

theorem viable_of_feed {taken : List Char} (htaken : Token.Spells taken ts)
    (hfeed : State.feed {} ts = some s) : Viable ts := by
  have hopen : State.Open {} := fun level hlevel => absurd hlevel List.not_mem_nil
  obtain ⟨s', hclosing, t, ht⟩ := (hopen.feed hfeed).feed_closing
  obtain ⟨text, hends, htext⟩ := s.lexed_closing
  refine ⟨s.closing, taken ++ text, t, htaken _ _ hends htext, ?_⟩
  refine derives_of_result (s := s') ?_ ht
  rw [State.feed_append, hfeed, Option.bind_some, hclosing]

/-! ## Where no type can go on -/

theorem not_viable_of_step {t : Token} (hfeed : State.feed {} ts = some s)
    (hstep : s.step t = none) : ¬ Viable (ts ++ [t]) := by
  rintro ⟨us, _, u, _, hderives⟩
  obtain ⟨level, hall, _⟩ := accepts_of_derives hderives [] []
  have hstart : State.feed {} (ts ++ [t] ++ us) = some ⟨level, []⟩ := hall
  rw [List.append_assoc, State.feed_append, hfeed, Option.bind_some, List.singleton_append,
    State.feed_cons, hstep] at hstart
  cases hstart

theorem not_isType_of_result (hfeed : State.feed {} ts = some s) (hresult : s.result? = none) :
    ¬ IsType ts := by
  rintro ⟨_, t, _, hderives⟩
  obtain ⟨level, hall, hvalue⟩ := accepts_of_derives hderives [] []
  cases hfeed.symm.trans hall
  have hsome : State.result? ⟨level, []⟩ = some t := hvalue
  rw [hresult] at hsome
  cases hsome

/-- A run is refused at the first token that cannot follow. -/
theorem State.run_eq_error {lexemes : List Lexeme} {offset : Nat}
    (h : s.run lexemes = .error offset) :
    ∃ before lexeme after s', lexemes = before ++ lexeme :: after ∧ lexeme.offset = offset ∧
      s.feed (before.map Lexeme.token) = some s' ∧ s'.step lexeme.token = none := by
  induction lexemes generalizing s with
  | nil => cases h
  | cons lexeme rest ih =>
    cases hstep : s.step lexeme.token with
    | none =>
      simp only [State.run, hstep, Except.error.injEq] at h
      exact ⟨[], lexeme, rest, s, rfl, h, rfl, hstep⟩
    | some s₁ =>
      simp only [State.run, hstep] at h
      obtain ⟨before, failed, after, s', rfl, hoffset, hfeed, hnone⟩ := ih h
      refine ⟨lexeme :: before, failed, after, s', rfl, hoffset, ?_, hnone⟩
      rw [List.map_cons, State.feed_cons, hstep, Option.bind_some, hfeed]

end Reader

/-- The place at which a text is refused, with the tokens before it. -/
theorem NamedTy.read_error_split {source : String} {e : ReadError}
    (h : NamedTy.read source = .error e) :
    e.source = source ∧ ∃ taken rest ts, source.toList = taken ++ rest ∧
      e.offset = Token.byteSize taken ∧ Token.Leads source.toList ts rest ∧
      Grammar.Viable ts ∧ Grammar.Stops ts rest := by
  rw [NamedTy.read] at h
  split at h
  next offset hrun =>
    cases h
    obtain ⟨before, lexeme, after, s, hscan, rfl, hfeed, hstep⟩ := Reader.State.run_eq_error hrun
    obtain ⟨taken, rest, hsplit, hleads, hblank, hafter⟩ :=
      Token.leads_of_scan hscan (Reader.junk_not_mem_of_feed hfeed)
    rw [Nat.zero_add] at hafter
    obtain ⟨_, _, hspells⟩ := hleads.spells
    refine ⟨rfl, taken, rest, _, hsplit, (Token.starts_of_scan hblank hafter).1, hleads,
      Reader.viable_of_feed hspells hfeed, .inr ⟨?_, fun t rest' hstart => ?_⟩⟩
    · rintro rfl
      rw [Token.scan] at hafter
      cases hafter
    · rw [← hstart.eq_of_scan hafter]
      exact Reader.not_viable_of_step hfeed hstep
  next s hrun =>
    rw [Reader.State.run_eq_ok_iff] at hrun
    split at h
    · cases h
    next hresult =>
      cases h
      obtain ⟨taken, rest, hsplit, hleads, hblank, hafter⟩ :=
        Token.leads_of_scan (List.append_nil _).symm (Reader.junk_not_mem_of_feed hrun)
      obtain rfl := Token.eq_nil_of_scan hblank hafter
      obtain ⟨_, _, hspells⟩ := hleads.spells
      refine ⟨rfl, taken, [], _, hsplit, ?_, hleads, Reader.viable_of_feed hspells hrun,
        .inl ⟨rfl, Reader.not_isType_of_result hrun hresult⟩⟩
      rw [List.append_nil] at hsplit
      rw [← hsplit, Token.byteSize_eq, String.ofList_toList]

end BlockGraph
