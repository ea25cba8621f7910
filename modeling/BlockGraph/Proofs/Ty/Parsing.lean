import BlockGraph.Proofs.Ty.Rejection

/-!
# Reading by trying

The grammar of types can also be read as a parser over characters that tries one alternative after
another.  A part that does not fit backtracks, and the next alternative starts where that one had
started.  After an arrow or an open bracket there is no way back: a part that does not fit is cut
off there, and the whole text is refused.

`NamedTy.parse?` is this parser.  It gives what the machine of `Reader` gives, for the texts that
are types and for the offsets at which the others are refused.  The machine has taken in what the
parser has read, and where the parser fails, no token starts that the machine could take.
-/

namespace BlockGraph

/-- What becomes of reading a part: a value with the text behind it, or a failure with the text at
which it shows.  Only the first kind of failure lets another alternative be tried. -/
inductive Outcome (α : Type) where
  | done (value : α) (rest : List Char)
  | backtrack (rest : List Char)
  | cut (rest : List Char)

namespace Outcome

variable {α β : Type}

def map (f : α → β) : Outcome α → Outcome β
  | done a rest => done (f a) rest
  | backtrack rest => backtrack rest
  | cut rest => cut rest

/-- No way back from a failure. -/
def commit : Outcome α → Outcome α
  | backtrack rest => cut rest
  | outcome => outcome

end Outcome

namespace TyParser

/-! ## The parser -/

def blanks (cs : List Char) : List Char :=
  cs.dropWhile Token.isSpace

/-- The characters of a sign, behind blanks. -/
def sign (chars : List Char) (cs : List Char) : Outcome Unit :=
  if chars.isPrefixOf (blanks cs) then .done () ((blanks cs).drop chars.length)
  else .backtrack (blanks cs)

/-- A word behind blanks. -/
def word (cs : List Char) : Outcome (List Char) :=
  match (blanks cs).takeWhile Token.isWordChar with
  | [] => .backtrack (blanks cs)
  | chars => .done chars ((blanks cs).dropWhile Token.isWordChar)

/-- A word with a first character of a kind. -/
def wordOf (kind : Char → Bool) (cs : List Char) : Outcome String :=
  match word cs with
  | .done chars rest =>
    if chars.head?.any kind then .done (String.ofList chars) rest else .backtrack cs
  | .backtrack rest => .backtrack rest
  | .cut rest => .cut rest

def name : List Char → Outcome String :=
  wordOf fun c => Text.isUppercase c || c = '_'

def var : List Char → Outcome String :=
  wordOf Text.isLowercase

end TyParser

namespace Grammar.Nonterminal

open TyParser

/-- Reads a phrase.  An operand is a name with its arguments, or else one atom.  An atom is a
variable, or else a name, or else a type in brackets. -/
def parse? : (X : Nonterminal) → List Char → Option (Outcome X.Meaning)
  | type, cs => do
    match ← applied |>.parse? cs with
    | .done head rest =>
      match sign ['-', '>'] rest with
      | .done () after => return (← type |>.parse? after).commit.map (.fn head)
      | _ => return .done head rest
    | failed => return failed
  | applied, cs => do
    match name cs with
    | .done head rest =>
      match ← atoms |>.parse? rest with
      | .done args rest => return .done (.lit head args) rest
      | .backtrack _ => atom |>.parse? cs
      | .cut rest => return .cut rest
    | _ => atom |>.parse? cs
  | atoms, cs => do
    match ← atom |>.parse? cs with
    | .done t rest => return (← atoms |>.parse? rest).map (t :: ·)
    | .backtrack _ => return .done [] cs
    | .cut rest => return .cut rest
  | atom, cs => do
    match var cs with
    | .done word rest => return .done (.var word) rest
    | _ =>
      match name cs with
      | .done word rest => return .done (.lit word []) rest
      | _ =>
        match sign ['('] cs with
        | .done () inside =>
          match (← type |>.parse? inside).commit with
          | .done t rest => return (sign [')'] rest).commit.map fun _ => t
          | failed => return failed
        | .backtrack rest => return .backtrack rest
        | .cut rest => return .cut rest
partial_fixpoint

end Grammar.Nonterminal

namespace TyParser

/-- A type, and behind it nothing but blanks. -/
def whole? (cs : List Char) : Option (Outcome NamedTy) := do
  match ← Grammar.Nonterminal.type.parse? cs with
  | .done t rest =>
    match blanks rest with
    | [] => return .done t []
    | rest => return .backtrack rest
  | failed => return failed

end TyParser

def NamedTy.parse? (source : String) : Option (Except ReadError NamedTy) := do
  match ← TyParser.whole? source.toList with
  | .done t _ => return .ok t
  | .backtrack rest | .cut rest =>
    return .error ⟨source, source.utf8ByteSize - Token.byteSize rest⟩

/-! ## The machine from a text on -/

namespace Reader

open Token TyParser

variable {s s' : State} {cs rest : List Char} {t : Token} {total : Nat}

/-- What the machine gives for the text that is left of one with the given size. -/
def State.resume (total : Nat) (s : State) (cs : List Char) : Except Nat NamedTy :=
  match s.run (scan (total - byteSize cs) cs) with
  | .error offset => .error offset
  | .ok s =>
    match s.result? with
    | some t => .ok t
    | none => .error total

theorem byteSize_blanks (cs : List Char) :
    byteSize cs = byteSize (cs.takeWhile isSpace) + byteSize (blanks cs) := by
  rw [blanks, ← byteSize_append, List.takeWhile_append_dropWhile]

theorem resume_blanks (h : byteSize cs ≤ total) :
    s.resume total cs = s.resume total (blanks cs) := by
  have hoffset : total - byteSize cs + byteSize (cs.takeWhile isSpace) =
      total - byteSize (blanks cs) := by
    have := byteSize_blanks cs
    omega
  rw [State.resume, scan_blanks, hoffset, State.resume]
  rfl

theorem byteSize_lt (h : Starts (blanks cs) t rest) : byteSize rest < byteSize cs := by
  obtain ⟨c, taken, htaken⟩ : ∃ c taken, blanks cs = c :: taken ++ rest := by
    generalize blanks cs = ds at h
    cases h with
    | arrow => exact ⟨'-', ['>'], rfl⟩
    | lparen => exact ⟨'(', [], rfl⟩
    | rparen => exact ⟨')', [], rfl⟩
    | name => exact ⟨_, _, rfl⟩
    | var => exact ⟨_, _, rfl⟩
  have hpos := c.utf8Size_pos
  rw [byteSize_blanks cs, htaken, byteSize_append, byteSize]
  omega

/-- A token that the machine takes leads to the text behind it. -/
theorem resume_step (h : Starts (blanks cs) t rest) (hstep : s.step t = some s')
    (hcs : byteSize cs ≤ total) : s.resume total cs = s'.resume total rest := by
  obtain ⟨taken, hsplit, hscan, _⟩ := h.lexed
  have hoffset : total - byteSize (blanks cs) + byteSize taken = total - byteSize rest := by
    have := byteSize_blanks cs
    rw [hsplit, byteSize_append] at this ⊢
    omega
  rw [resume_blanks hcs, State.resume, hscan, hoffset]
  simp only [State.run, hstep]
  rfl

/-- Behind an open bracket the machine has another level. -/
theorem resume_open {operand : Operand} (h : Starts (blanks cs) .lparen rest)
    (hcs : byteSize cs ≤ total) (htakes : operand.takesAtom = true) (domains : List NamedTy)
    (outer : List Level) : State.resume total ⟨⟨domains, operand⟩, outer⟩ cs =
      State.resume total ⟨{}, ⟨domains, operand⟩ :: outer⟩ rest :=
  resume_step h (by simp [State.step, htakes]) hcs

/-- Where the machine takes no token and does not end, the text is refused. -/
theorem resume_stuck (hstep : ∀ t rest, Starts (blanks cs) t rest → s.step t = none)
    (hend : blanks cs = [] → s.result? = none) (hcs : byteSize cs ≤ total) :
    s.resume total cs = .error (total - byteSize (blanks cs)) := by
  have hblank := List.head?_dropWhile_not isSpace cs
  rw [resume_blanks hcs, State.resume]
  rw [← blanks] at hblank
  cases hrest : blanks cs with
  | nil =>
    rw [scan]
    simp only [State.run, hend hrest]
    rfl
  | cons c tail =>
    rw [hrest] at hblank hstep
    obtain ⟨t, lexemes, hscan, hstarts⟩ := scan_nonblank (total - byteSize (c :: tail)) tail hblank
    have hnone : s.step t = none := by
      by_cases hjunk : t = .junk
      · rw [hjunk]
        rfl
      · obtain ⟨rest, hstart⟩ := hstarts hjunk
        exact hstep t rest hstart
    rw [hscan]
    simp only [State.run, hnone]

end Reader

namespace TyParser

open Grammar Token Reader

variable {cs rest : List Char} {total : Nat}

/-! ## Words and signs -/

theorem starts_sign {t : Token} (h : Starts cs t rest) :
    (t = .arrow → cs = ['-', '>'] ++ rest) ∧ (t = .lparen → cs = ['('] ++ rest) ∧
      (t = .rparen → cs = [')'] ++ rest) ∧ t ≠ .junk := by
  cases h <;> simp

theorem sign_cases (chars cs : List Char) :
    (∃ rest, blanks cs = chars ++ rest ∧ sign chars cs = .done () rest) ∨
      (sign chars cs = .backtrack (blanks cs) ∧ ∀ rest, blanks cs ≠ chars ++ rest) := by
  rw [sign]
  split
  · next h =>
    obtain ⟨rest, hrest⟩ := List.isPrefixOf_iff_prefix.mp h
    exact .inl ⟨rest, hrest.symm, by rw [← hrest, List.drop_left]⟩
  · next h =>
    refine .inr ⟨rfl, fun rest hrest => h (List.isPrefixOf_iff_prefix.mpr ⟨rest, hrest.symm⟩)⟩

theorem wordOf_cases (kind : Char → Bool) (cs : List Char) :
    (∃ c chars rest, blanks cs = c :: chars ++ rest ∧ (∀ d ∈ c :: chars, isWordChar d = true) ∧
        EndsWord rest ∧ kind c = true ∧
        wordOf kind cs = .done (String.ofList (c :: chars)) rest) ∨
      ((∃ rest, wordOf kind cs = .backtrack rest) ∧
        ∀ c tail, blanks cs = c :: tail → isWordChar c = true → kind c = false) := by
  rw [wordOf, word]
  cases hcs : blanks cs with
  | nil => exact .inr ⟨⟨[], rfl⟩, fun _ _ h => by cases h⟩
  | cons c tail =>
    by_cases hc : isWordChar c = true
    · rw [List.takeWhile_cons_of_pos hc, List.dropWhile_cons_of_pos hc]
      obtain ⟨hword, hend⟩ := word_split tail hc
      by_cases hkind : kind c = true
      · refine .inl ⟨c, tail.takeWhile isWordChar, tail.dropWhile isWordChar, ?_, hword, hend,
          hkind, by simp [hkind]⟩
        rw [List.cons_append, List.takeWhile_append_dropWhile]
      · refine .inr ⟨⟨cs, by simp [hkind]⟩, fun _ _ h _ => ?_⟩
        cases h
        exact Bool.eq_false_iff.mpr hkind
    · rw [List.takeWhile_cons_of_neg hc]
      refine .inr ⟨⟨_, rfl⟩, fun _ _ h hc' => ?_⟩
      cases h
      exact absurd hc' hc

theorem name_cases (cs : List Char) :
    (∃ word rest, Starts (blanks cs) (.name word) rest ∧ name cs = .done word rest) ∨
      ((∃ rest, name cs = .backtrack rest) ∧
        ∀ word rest, ¬ Starts (blanks cs) (.name word) rest) := by
  rcases wordOf_cases (fun c => Text.isUppercase c || c = '_') cs with
    ⟨c, chars, rest, hcs, hword, hend, hkind, hname⟩ | ⟨hname, hnone⟩
  · refine .inl ⟨_, rest, ?_, hname⟩
    rw [hcs]
    exact .name hword hend (by simpa [or_comm] using hkind)
  · refine .inr ⟨hname, fun word rest h => ?_⟩
    generalize hcs : blanks cs = ds at h
    cases h with
    | name hword hend hc =>
      have := hnone _ _ hcs (hword _ List.mem_cons_self)
      rcases hc with rfl | hc <;> simp_all

theorem var_cases (cs : List Char) :
    (∃ word rest, Starts (blanks cs) (.var word) rest ∧ var cs = .done word rest) ∨
      ((∃ rest, var cs = .backtrack rest) ∧
        ∀ word rest, ¬ Starts (blanks cs) (.var word) rest) := by
  rcases wordOf_cases Text.isLowercase cs with
    ⟨c, chars, rest, hcs, hword, hend, hkind, hvar⟩ | ⟨hvar, hnone⟩
  · refine .inl ⟨_, rest, ?_, hvar⟩
    rw [hcs]
    exact .var hword hend hkind
  · refine .inr ⟨hvar, fun word rest h => ?_⟩
    generalize hcs : blanks cs = ds at h
    cases h with
    | var hword hend hc =>
      rw [hnone _ _ hcs (hword _ List.mem_cons_self)] at hc
      cases hc

/-! ## What the parser has read -/

/-- The text goes on with no token that the operand could take. -/
def Ended (operand : Operand) (rest : List Char) : Prop :=
  ∀ t rest', Starts (blanks rest) t rest' → t ≠ .arrow → t ≠ .rparen → operand.takesAtom = false

/-- Where an operand has ended, the machine takes at most an arrow or a bracket. -/
theorem Ended.step {level : Level} {outer : List Level} {t : Token} {rest' : List Char}
    (h : Ended level.operand rest) (hstart : Starts (blanks rest) t rest') (harrow : t ≠ .arrow)
    (hbracket : t ≠ .rparen) : State.step ⟨level, outer⟩ t = none := by
  have htakes := h t rest' hstart harrow hbracket
  obtain ⟨domains, operand⟩ := level
  cases operand with
  | whole u => cases t <;> first | rfl | contradiction
  | _ => cases htakes

/-- The machine takes in the type that the parser has read, and refuses the text where the parser
does. -/
def TypeRead (total : Nat) (cs : List Char) : Outcome NamedTy → Prop
  | .done t rest => byteSize rest < byteSize cs ∧ ∀ domains outer, ∃ level,
      State.resume total ⟨⟨domains, .vacant⟩, outer⟩ cs = State.resume total ⟨level, outer⟩ rest ∧
      level.value? = some (.curried domains t) ∧ Ended level.operand rest ∧
      ∀ rest', ¬ Starts (blanks rest) .arrow rest'
  | .backtrack rest | .cut rest => ∀ domains outer,
      State.resume total ⟨⟨domains, .vacant⟩, outer⟩ cs = .error (total - byteSize rest)

def AppliedRead (total : Nat) (cs : List Char) : Outcome NamedTy → Prop
  | .done t rest => byteSize rest < byteSize cs ∧ ∀ domains outer, ∃ operand,
      State.resume total ⟨⟨domains, .vacant⟩, outer⟩ cs =
        State.resume total ⟨⟨domains, operand⟩, outer⟩ rest ∧
      operand.value? = some t ∧ Ended operand rest
  | .backtrack rest | .cut rest => ∀ domains outer,
      State.resume total ⟨⟨domains, .vacant⟩, outer⟩ cs = .error (total - byteSize rest)

def AtomsRead (total : Nat) (cs : List Char) : Outcome (List NamedTy) → Prop
  | .done ts rest => byteSize rest ≤ byteSize cs ∧ ∀ domains outer name args,
      State.resume total ⟨⟨domains, .applied name args⟩, outer⟩ cs =
        State.resume total ⟨⟨domains, .applied name (args ++ ts)⟩, outer⟩ rest ∧
      Ended (.applied name (args ++ ts)) rest
  | .backtrack _ => False
  | .cut rest => ∀ domains outer name args,
      State.resume total ⟨⟨domains, .applied name args⟩, outer⟩ cs = .error (total - byteSize rest)

/-- A name is an atom only behind another name. -/
def AtomRead (total : Nat) (cs : List Char) : Outcome NamedTy → Prop
  | .done t rest => byteSize rest < byteSize cs ∧ ∀ domains outer operand,
      operand.takesAtom = true →
      (operand = .vacant → ∀ word rest', ¬ Starts (blanks cs) (.name word) rest') →
      ∃ operand', operand.addAtom t = some operand' ∧
        State.resume total ⟨⟨domains, operand⟩, outer⟩ cs =
          State.resume total ⟨⟨domains, operand'⟩, outer⟩ rest
  | .backtrack rest => rest = blanks cs ∧
      ∀ t rest', Starts (blanks cs) t rest' → t = .arrow ∨ t = .rparen
  | .cut rest => ∀ domains outer operand, operand.takesAtom = true →
      State.resume total ⟨⟨domains, operand⟩, outer⟩ cs = .error (total - byteSize rest)

section Brackets

variable {inside : List Char} {t : NamedTy} (hopen : Starts (blanks cs) .lparen inside)
  (hcs : byteSize cs ≤ total) (hread : TypeRead total inside (.done t rest))
include hopen hcs hread

theorem atomRead_closed {after : List Char} (hclose : Starts (blanks rest) .rparen after) :
    AtomRead total cs (.done t after) := by
  obtain ⟨hlt, hread⟩ := hread
  have hlt₁ := byteSize_lt hopen
  have hlt₂ := byteSize_lt hclose
  refine ⟨by omega, fun domains outer operand htakes _ => ?_⟩
  obtain ⟨operand', hadd, _⟩ := Operand.addAtom_of_takesAtom htakes t
  obtain ⟨level, hresume, hvalue, _⟩ := hread [] (⟨domains, operand⟩ :: outer)
  refine ⟨operand', hadd, ?_⟩
  rw [resume_open hopen hcs htakes, hresume]
  refine resume_step hclose ?_ (by omega)
  simp [State.step, hvalue, hadd, TyTerm.curried]

theorem atomRead_unclosed (hnone : ∀ after, ¬ Starts (blanks rest) .rparen after) :
    AtomRead total cs (.cut (blanks rest)) := by
  obtain ⟨hlt, hread⟩ := hread
  have hlt₁ := byteSize_lt hopen
  intro domains outer operand htakes
  obtain ⟨level, hresume, _, hended, harrow⟩ := hread [] (⟨domains, operand⟩ :: outer)
  rw [resume_open hopen hcs htakes, hresume]
  refine resume_stuck (fun t rest' hstart => hended.step hstart ?_ ?_) (fun _ => rfl) (by omega)
  · rintro rfl
    exact harrow _ hstart
  · rintro rfl
    exact hnone _ hstart

end Brackets

section Induction

/-! The parts of a type of size `bound`, if all smaller ones are read. -/

variable {bound : Nat} (hbound : bound ≤ total)
  (ih : ∀ cs, byteSize cs < bound →
    ∃ out, Nonterminal.type.parse? cs = some out ∧ TypeRead total cs out)
include hbound ih

theorem exists_atom? (hle : byteSize cs ≤ bound) :
    ∃ out, Nonterminal.atom.parse? cs = some out ∧ AtomRead total cs out := by
  have hcs := Nat.le_trans hle hbound
  rw [Nonterminal.parse?]
  rcases var_cases cs with ⟨word, rest, hstart, hvar⟩ | ⟨⟨_, hvar⟩, hnovar⟩
  · rw [hvar]
    refine ⟨_, rfl, byteSize_lt hstart, fun domains outer operand htakes _ => ?_⟩
    obtain ⟨operand', hadd, _⟩ := Operand.addAtom_of_takesAtom htakes (.var word)
    exact ⟨operand', hadd, resume_step hstart (by simp [State.step, hadd]) hcs⟩
  rw [hvar]
  rcases name_cases cs with ⟨word, rest, hstart, hname⟩ | ⟨⟨_, hname⟩, hnoname⟩
  · rw [hname]
    refine ⟨_, rfl, byteSize_lt hstart, fun domains outer operand htakes hvacant => ?_⟩
    cases operand with
    | vacant => exact absurd hstart (hvacant rfl word rest)
    | applied head args => exact ⟨_, rfl, resume_step hstart rfl hcs⟩
    | whole t => cases htakes
  rw [hname]
  rcases sign_cases ['('] cs with ⟨inside, hinside, hsign⟩ | ⟨hsign, hnosign⟩
  · have hstart : Starts (blanks cs) .lparen inside := by
      rw [hinside]
      exact .lparen
    have hlt := byteSize_lt hstart
    obtain ⟨out, htype, hread⟩ := ih inside (by omega)
    simp only [hsign, htype, bind, Option.bind]
    cases out with
    | done t rest =>
      rcases sign_cases [')'] rest with ⟨after, hafter, hsign⟩ | ⟨hsign, hnosign⟩
      · have hclose : Starts (blanks rest) .rparen after := by
          rw [hafter]
          exact .rparen
        simp only [Outcome.commit, hsign]
        exact ⟨_, rfl, atomRead_closed hstart hcs hread hclose⟩
      · simp only [Outcome.commit, hsign]
        refine ⟨_, rfl, atomRead_unclosed hstart hcs hread fun after hclose => ?_⟩
        exact hnosign _ ((starts_sign hclose).2.2.1 rfl)
    | backtrack rest =>
      exact ⟨_, rfl, fun _ _ _ htakes => (resume_open hstart hcs htakes ..).trans (hread [] _)⟩
    | cut rest =>
      exact ⟨_, rfl, fun _ _ _ htakes => (resume_open hstart hcs htakes ..).trans (hread [] _)⟩
  · rw [hsign]
    refine ⟨_, rfl, rfl, fun t rest' hstart => ?_⟩
    cases t with
    | arrow => exact .inl rfl
    | rparen => exact .inr rfl
    | name word => exact absurd hstart (hnoname word rest')
    | var word => exact absurd hstart (hnovar word rest')
    | lparen => exact absurd ((starts_sign hstart).2.1 rfl) (hnosign _)
    | junk => exact absurd rfl (starts_sign hstart).2.2.2

theorem exists_atoms? (hle : byteSize cs ≤ bound) :
    ∃ out, Nonterminal.atoms.parse? cs = some out ∧ AtomsRead total cs out := by
  induction hsize : byteSize cs using Nat.strongRecOn generalizing cs with
  | ind size ihsize =>
    obtain ⟨out, hatom, hread⟩ := exists_atom? hbound ih hle
    rw [Nonterminal.parse?]
    simp only [hatom, bind, Option.bind]
    cases out with
    | done t rest =>
      obtain ⟨hlt, hread⟩ := hread
      obtain ⟨out, hatoms, hrest⟩ := ihsize (byteSize rest) (by omega) (by omega) rfl
      -- Behind a name, an atom is one more argument.
      have hargs : ∀ domains outer name args,
          State.resume total ⟨⟨domains, .applied name args⟩, outer⟩ cs =
            State.resume total ⟨⟨domains, .applied name (args ++ [t])⟩, outer⟩ rest := by
        intro domains outer name args
        obtain ⟨_, hadd, hresume⟩ := hread domains outer (.applied name args) rfl
          fun hvacant => by cases hvacant
        cases hadd
        exact hresume
      simp only [hatoms]
      cases out with
      | done ts rest' =>
        obtain ⟨hle', hrest⟩ := hrest
        refine ⟨_, rfl, by omega, fun domains outer name args => ?_⟩
        have hmore := hrest domains outer name (args ++ [t])
        rw [List.append_assoc, List.singleton_append] at hmore
        exact ⟨(hargs ..).trans hmore.1, hmore.2⟩
      | backtrack rest' => exact hrest.elim
      | cut rest' => exact ⟨_, rfl, fun _ _ _ _ => (hargs ..).trans (hrest ..)⟩
    | backtrack rest =>
      refine ⟨_, rfl, Nat.le_refl _, fun domains outer name args => ?_⟩
      rw [List.append_nil]
      refine ⟨rfl, fun t rest' hstart harrow hbracket => ?_⟩
      exact ((hread.2 t rest' hstart).elim harrow hbracket).elim
    | cut rest => exact ⟨_, rfl, fun domains outer name args => hread domains outer _ rfl⟩

theorem exists_applied? (hle : byteSize cs ≤ bound) :
    ∃ out, Nonterminal.applied.parse? cs = some out ∧ AppliedRead total cs out := by
  have hcs := Nat.le_trans hle hbound
  rw [Nonterminal.parse?]
  rcases name_cases cs with ⟨word, rest, hstart, hname⟩ | ⟨⟨_, hname⟩, hnoname⟩
  · have hlt := byteSize_lt hstart
    have hhead : ∀ domains outer, State.resume total ⟨⟨domains, .vacant⟩, outer⟩ cs =
        State.resume total ⟨⟨domains, .applied word []⟩, outer⟩ rest := fun _ _ =>
      resume_step hstart rfl hcs
    obtain ⟨out, hatoms, hread⟩ := exists_atoms? hbound ih (Nat.le_trans (Nat.le_of_lt hlt) hle)
    simp only [hname, hatoms, bind, Option.bind]
    cases out with
    | done args rest' =>
      obtain ⟨hle', hread⟩ := hread
      refine ⟨_, rfl, by omega, fun domains outer => ⟨.applied word args, ?_, rfl, ?_⟩⟩
      · exact (hhead ..).trans (hread domains outer word []).1
      · exact (hread domains outer word []).2
    | backtrack rest' => exact hread.elim
    | cut rest' => exact ⟨_, rfl, fun _ _ => (hhead ..).trans (hread ..)⟩
  · obtain ⟨out, hatom, hread⟩ := exists_atom? hbound ih hle
    simp only [hname, hatom]
    refine ⟨out, rfl, ?_⟩
    cases out with
    | done t rest =>
      refine ⟨hread.1, fun domains outer => ⟨.whole t, ?_, rfl, fun _ _ _ _ _ => rfl⟩⟩
      obtain ⟨_, hadd, hresume⟩ := hread.2 domains outer .vacant rfl fun _ => hnoname
      cases hadd
      exact hresume
    | backtrack rest =>
      obtain ⟨rfl, hnone⟩ := hread
      refine fun domains outer => resume_stuck (fun t rest' hstart => ?_) (fun _ => ?_) hcs
      · rcases hnone t rest' hstart with rfl | rfl <;> rfl
      · rw [State.result?]
        split <;> rfl
    | cut rest => exact fun domains outer => hread domains outer .vacant rfl

theorem exists_type? (hle : byteSize cs ≤ bound) :
    ∃ out, Nonterminal.type.parse? cs = some out ∧ TypeRead total cs out := by
  obtain ⟨out, happlied, hread⟩ := exists_applied? hbound ih hle
  rw [Nonterminal.parse?]
  simp only [happlied, bind, Option.bind]
  cases out with
  | done head rest =>
    obtain ⟨hlt, hread⟩ := hread
    rcases sign_cases ['-', '>'] rest with ⟨after, hafter, hsign⟩ | ⟨hsign, hnosign⟩
    · have harrow : Starts (blanks rest) .arrow after := by
        rw [hafter]
        exact .arrow
      have hlt' := byteSize_lt harrow
      have hdomain : ∀ domains outer, State.resume total ⟨⟨domains, .vacant⟩, outer⟩ cs =
          State.resume total ⟨⟨domains ++ [head], .vacant⟩, outer⟩ after := by
        intro domains outer
        obtain ⟨operand, hresume, hvalue, _⟩ := hread domains outer
        exact hresume.trans (resume_step harrow (by simp [State.step, hvalue]) (by omega))
      obtain ⟨out, htype, hread'⟩ := ih after (by omega)
      simp only [hsign, htype]
      cases out with
      | done codomain rest' =>
        obtain ⟨hlt'', hread'⟩ := hread'
        refine ⟨_, rfl, by omega, fun domains outer => ?_⟩
        obtain ⟨level, hresume, hvalue, hended⟩ := hread' (domains ++ [head]) outer
        refine ⟨level, (hdomain ..).trans hresume, ?_, hended⟩
        rw [hvalue, TyTerm.curried, List.foldr_append]
        rfl
      | backtrack rest' => exact ⟨_, rfl, fun _ _ => (hdomain ..).trans (hread' ..)⟩
      | cut rest' => exact ⟨_, rfl, fun _ _ => (hdomain ..).trans (hread' ..)⟩
    · simp only [hsign]
      refine ⟨_, rfl, hlt, fun domains outer => ?_⟩
      obtain ⟨operand, hresume, hvalue, hended⟩ := hread domains outer
      refine ⟨⟨domains, operand⟩, hresume, by rw [Level.value?, hvalue, Option.map_some], hended,
        fun rest' hstart => hnosign _ ((starts_sign hstart).1 rfl)⟩
  | backtrack rest => exact ⟨_, rfl, hread⟩
  | cut rest => exact ⟨_, rfl, hread⟩

end Induction

/-- The parser comes to an end on every text, and the machine goes along with it. -/
theorem type?_read (total : Nat) (hcs : byteSize cs ≤ total) :
    ∃ out, Nonterminal.type.parse? cs = some out ∧ TypeRead total cs out := by
  induction hsize : byteSize cs using Nat.strongRecOn generalizing cs with
  | ind size ih =>
    have hsmaller : ∀ ds, byteSize ds < byteSize cs →
        ∃ out, Nonterminal.type.parse? ds = some out ∧ TypeRead total ds out :=
      fun ds hds => ih _ (hsize ▸ hds) (by omega) rfl
    exact exists_type? hcs hsmaller (Nat.le_refl _)

theorem whole?_read (hcs : byteSize cs ≤ total) : ∃ out, whole? cs = some out ∧
    match out with
    | .done t _ => State.resume total {} cs = .ok t
    | .backtrack rest | .cut rest => State.resume total {} cs = .error (total - byteSize rest) := by
  obtain ⟨out, htype, hread⟩ := type?_read total hcs
  rw [whole?]
  simp only [htype, bind, Option.bind]
  cases out with
  | done t rest =>
    obtain ⟨hlt, hread⟩ := hread
    obtain ⟨level, hresume, hvalue, hended, harrow⟩ := hread [] []
    have hresult : State.result? ⟨level, []⟩ = some t := hvalue
    have hstart : State.resume total {} cs = State.resume total ⟨level, []⟩ rest := hresume
    have hrest : byteSize rest ≤ total := by omega
    rw [hstart]
    cases hblanks : blanks rest with
    | nil =>
      simp only [hblanks]
      refine ⟨_, rfl, ?_⟩
      rw [resume_blanks hrest, hblanks, State.resume, scan]
      simp only [State.run, hresult]
    | cons c tail =>
      simp only [hblanks]
      refine ⟨_, rfl, ?_⟩
      rw [← hblanks]
      refine resume_stuck (fun t rest' hstart => ?_) (fun hnil => ?_) hrest
      · by_cases hbracket : t = .rparen
        · -- No bracket is open that could be closed.
          rw [hbracket, State.step, hvalue]
        · refine hended.step hstart ?_ hbracket
          rintro rfl
          exact harrow _ hstart
      · rw [hblanks] at hnil
        cases hnil
  | backtrack rest => exact ⟨_, rfl, hread [] []⟩
  | cut rest => exact ⟨_, rfl, hread [] []⟩

end TyParser

/-- The parser gives what the machine gives: the same type, or the same offset. -/
theorem NamedTy.parse?_eq (source : String) : parse? source = some (read source) := by
  have hsize : Token.byteSize source.toList = source.utf8ByteSize := by
    rw [Token.byteSize_eq, String.ofList_toList]
  have hread : read source = (Reader.State.resume source.utf8ByteSize {} source.toList).mapError
      fun offset => ⟨source, offset⟩ := by
    rw [read, Reader.State.resume, hsize, Nat.sub_self]
    cases Reader.State.run {} (Token.scan 0 source.toList) with
    | error offset => rfl
    | ok s => cases hresult : s.result? <;> simp only [hresult] <;> rfl
  obtain ⟨out, hwhole, hout⟩ := TyParser.whole?_read (Nat.le_of_eq hsize)
  rw [parse?, hread]
  simp only [hwhole, bind, Option.bind]
  cases out <;> rw [hout] <;> rfl

/-! ## The language of the parser -/

/-- Parses a type and then gives its variables fresh numbers, in the order in which they are met. -/
def Loading.parseType? (context source : String) (s : Supply) :
    Option (Except LoadError (Ty × Supply)) := do
  match ← NamedTy.parse? source with
  | .ok t =>
    let (t, seen) := t.threaded (s.next + ·) []
    return .ok (t, s.skip seen.length)
  | .error e => return .error (.unreadable context e)

theorem Loading.parseType?_eq (context source : String) (s : Supply) :
    parseType? context source s = some (readType context source s) := by
  rw [parseType?, NamedTy.parse?_eq, readType]
  cases NamedTy.read source with
  | error e => rfl
  | ok t =>
    obtain ⟨hthreaded, hsupply⟩ := t.threaded_instantiate s
    simp only [bind, Option.bind, hthreaded]
    rfl

/-- The parser reads a text as a type exactly if it splits into tokens that derive one.  The split
and the type are then unique, and each variable name of the text stands for a fresh variable of its
own.  Below 128, the classes of characters are those of ASCII. -/
theorem Loading.readType_accepts_grammar (context source : String) (s : Supply) :
    Loading.parseType? context source s = some (Loading.readType context source s) ∧
    ((∃ result, Loading.readType context source s = .ok result) ↔
      ∃ ts t, Token.Lexed source.toList ts ∧ Grammar.Derives .type ts t) ∧
    (∀ ts ts', Token.Lexed source.toList ts → Token.Lexed source.toList ts' → ts = ts') ∧
    (∀ ts t t', Grammar.Derives .type ts t → Grammar.Derives .type ts t' → t = t') ∧
    (∀ ts t, Token.Lexed source.toList ts → Grammar.Derives .type ts t →
      ∃ number : String → TyVar,
        Loading.readType context source s = .ok (t.map number, s.skip t.vars.length) ∧
        (∀ v ∈ t.leaves, s.next ≤ number v ∧ number v < s.next + t.vars.length) ∧
        ∀ v ∈ t.leaves, ∀ w ∈ t.leaves, number v = number w → v = w) ∧
    ∀ c : Char, c.toNat < 128 → Text.isUppercase c = c.isUpper ∧ Text.isLowercase c = c.isLower ∧
      Text.isAlphanumeric c = c.isAlphanum := by
  refine ⟨Loading.parseType?_eq context source s, ⟨?_, ?_⟩, ?_, ?_, ?_, ?_⟩
  · rintro ⟨result, hok⟩
    obtain ⟨t, ⟨ts, hts, ht⟩, -⟩ := Loading.readType_eq_ok_iff.mp hok
    exact ⟨ts, t, hts, ht⟩
  · rintro ⟨ts, t, hts, ht⟩
    exact ⟨_, Loading.readType_eq_ok_iff.mpr ⟨t, ⟨ts, hts, ht⟩, rfl⟩⟩
  · intro ts ts' h h'
    exact h.unique h'
  · intro ts t t' h h'
    exact Reader.derives_unique h h'
  · intro ts t hts ht
    obtain ⟨number, hnumber, hfresh⟩ := t.instantiate_spec s
    exact ⟨number, Loading.readType_eq_ok_iff.mpr ⟨t, ⟨ts, hts, ht⟩, hnumber⟩, hfresh⟩
  · intro c hc
    exact ⟨Text.isUppercase_ascii hc, Text.isLowercase_ascii hc, Text.isAlphanumeric_ascii hc⟩

theorem Loading.readType_accepts_nested_arrow :
    ∃ number : String → TyVar, Loading.readType "f" "(a -> _B2)\n->List a" ⟨7⟩ =
      .ok (.fn (.fn (.var (number "a")) (.lit "_B2" [])) (.lit "List" [.var (number "a")]),
          ⟨8⟩) := by
  have hlexed : Token.Lexed "(a -> _B2)\n->List a".toList [.lparen, .var "a", .arrow, .name "_B2",
      .rparen, .arrow, .name "List", .var "a"] := by
    have hchars : "(a -> _B2)\n->List a".toList = ['(', 'a', ' ', '-', '>', ' ', '_', 'B', '2', ')',
        '\n', '-', '>', 'L', 'i', 's', 't', ' ', 'a'] := by simp
    rw [hchars]
    refine .lparen (@Token.Lexed.var 'a' [] _ _ ?_ ?_ ?_ (.blank rfl (.arrow (.blank rfl
      (@Token.Lexed.name '_' ['B', '2'] _ _ ?_ ?_ ?_ (.rparen (.blank rfl (.arrow
        (@Token.Lexed.name 'L' ['i', 's', 't'] _ _ ?_ ?_ ?_ (.blank rfl
          (@Token.Lexed.var 'a' [] _ _ ?_ ?_ ?_ .nil))))))))))) <;>
      simp [Token.isWordChar_ascii, Text.isUppercase_ascii, Text.isLowercase_ascii]
  have hderives : Grammar.Derives .type [.lparen, .var "a", .arrow, .name "_B2", .rparen, .arrow,
      .name "List", .var "a"] (.fn (.fn (.var "a") (.lit "_B2" [])) (.lit "List" [.var "a"])) :=
    .arrow (.atom (.brackets (.arrow (.atom .var) (.applied (.application .none)))))
      (.applied (.application (.more .none .var)))
  obtain ⟨number, hread, -⟩ :=
    (Loading.readType_accepts_grammar "f" "(a -> _B2)\n->List a" ⟨7⟩).2.2.2.2.1 _ _ hlexed hderives
  exact ⟨number, hread⟩

/-! ## Where a text is refused -/

/-- A text is refused at the first place where no type can go on.  The tokens before that place are
the beginning of a type.  At that place the text ends too early, or there is a token that no type
has next, or no token starts. -/
theorem NamedTy.read_error_place {source : String} {e : ReadError}
    (h : NamedTy.parse? source = some (.error e)) :
    NamedTy.read source = .error e ∧ e.source = source ∧ e.offset ≤ source.utf8ByteSize ∧
    ∃ taken rest ts, source = String.ofList taken ++ String.ofList rest ∧
      e.offset = (String.ofList taken).utf8ByteSize ∧ Token.Leads source.toList ts rest ∧
      Grammar.Viable ts ∧ Grammar.Stops ts rest := by
  rw [NamedTy.parse?_eq] at h
  have h := Option.some.inj h
  obtain ⟨hsource, taken, rest, ts, hsplit, hoffset, hplace⟩ := NamedTy.read_error_split h
  have hjoin : source = String.ofList taken ++ String.ofList rest := by
    rw [← String.ofList_append, ← hsplit, String.ofList_toList]
  rw [Token.byteSize_eq] at hoffset
  refine ⟨h, hsource, ?_, taken, rest, ts, hjoin, hoffset, hplace⟩
  calc e.offset = (String.ofList taken).utf8ByteSize := hoffset
    _ ≤ (String.ofList taken).utf8ByteSize + (String.ofList rest).utf8ByteSize :=
      Nat.le_add_right _ _
    _ = source.utf8ByteSize := by rw [hjoin, String.utf8ByteSize_append]

/-- A variable takes no arguments, also in brackets. -/
theorem NamedTy.read_error_place_brackets :
    NamedTy.parse? "List (a b)" = some (.error ⟨"List (a b)", 8⟩) ∧
    ∃ taken rest ts, "List (a b)" = String.ofList taken ++ String.ofList rest ∧
      8 = (String.ofList taken).utf8ByteSize ∧ Token.Leads "List (a b)".toList ts rest ∧
      Grammar.Viable ts ∧ Grammar.Stops ts rest := by
  have hchars : "List (a b)".toList = ['L', 'i', 's', 't', ' ', '(', 'a', ' ', 'b', ')'] := by simp
  have hscan : Token.scan 0 "List (a b)".toList =
      [⟨.name "List", 0⟩, ⟨.lparen, 5⟩, ⟨.var "a", 6⟩, ⟨.var "b", 8⟩, ⟨.rparen, 9⟩] := by
    rw [hchars]
    simp [Token.scan, Token.isSpace, Token.isWordChar_ascii, Token.ofWord, Text.isUppercase_ascii,
      Text.isLowercase_ascii, Token.byteSize, Char.utf8Size]
  have hparse : NamedTy.parse? "List (a b)" = some (.error ⟨"List (a b)", 8⟩) := by
    rw [NamedTy.parse?_eq, NamedTy.read, hscan]
    rfl
  exact ⟨hparse, (NamedTy.read_error_place hparse).2.2.2⟩

end BlockGraph
