import BlockGraph.Proofs.Expr.Plain
import BlockGraph.Proofs.Ty.Printing
import Mathlib.Tactic.FinCases

/-!
# Words of printed expressions

What is printed is made of words, brackets and blanks.  `Piece.Split` relates a text to
its words and brackets; how many blanks stand between them, and of which kind, does not
matter, so a text with its blanks squeezed has the same pieces (`split_squeezed`).

All texts of an expression's document have the same pieces
(`PlainExpr.split_of_laidOut`), as names are words and line ends are blanks.
-/

namespace BlockGraph

open Token (isSpace IsName IsVar)

/-! ## The pieces of a text -/

/-- A bracket or a word. -/
inductive Piece where
  | opening
  | closing
  | word (w : String)

namespace Piece

/-- A character that ends the word before it. -/
def isBreak (c : Char) : Bool :=
  isSpace c || c = '(' || c = ')'

/-- A text that is one word. -/
def IsWord (w : String) : Prop :=
  w ≠ "" ∧ ∀ c ∈ w.toList, isBreak c = false

/-- The pieces from a place in a text on. -/
structure Tail where
  /-- The rest of the word that the place is in. -/
  word : List Char := []
  /-- The pieces after that word. -/
  later : List Piece := []

namespace Tail

def pieces : Tail → List Piece
  | ⟨[], later⟩ => later
  | ⟨c :: cs, later⟩ => .word (String.ofList (c :: cs)) :: later

/-- Goes back by one character. -/
def push (c : Char) (s : Tail) : Tail :=
  if isSpace c then ⟨[], s.pieces⟩
  else if c = '(' then ⟨[], .opening :: s.pieces⟩
  else if c = ')' then ⟨[], .closing :: s.pieces⟩
  else ⟨c :: s.word, s.later⟩

variable {s : Tail} {c : Char}

theorem pieces_of_word_nil (h : s.word = []) : s.pieces = s.later := by
  obtain ⟨_ | _, later⟩ := s
  · rfl
  · cases h

theorem push_space (h : isSpace c = true) : s.push c = ⟨[], s.pieces⟩ := by
  rw [push, if_pos h]

theorem push_inner (h : isBreak c = false) : s.push c = ⟨c :: s.word, s.later⟩ := by
  simp only [isBreak, Bool.or_eq_false_iff, decide_eq_false_iff_not] at h
  rw [push, if_neg (by simp [h.1.1]), if_neg h.1.2, if_neg h.2]

theorem word_push (h : isBreak c = true) : (s.push c).word = [] := by
  rw [push]
  split
  · rfl
  · split
    · rfl
    · split
      · rfl
      · simp_all [isBreak]

theorem foldr_inner {cs : List Char} (h : ∀ c ∈ cs, isBreak c = false) :
    cs.foldr push s = ⟨cs ++ s.word, s.later⟩ := by
  induction cs with
  | nil => rfl
  | cons c cs ih =>
    rw [List.foldr_cons, ih fun d hd => h d (List.mem_cons_of_mem c hd),
      push_inner (h c List.mem_cons_self)]
    rfl

end Tail

/-- A text has these pieces wherever its last word ends with it. -/
def Split (cs : List Char) (ps : List Piece) : Prop :=
  ∀ s : Tail, s.word = [] → (cs.foldr Tail.push s).pieces = ps ++ s.later

namespace Split

variable {cs ds : List Char} {ps qs : List Piece}

theorem unique (h : Split cs ps) (h' : Split cs qs) : ps = qs := by
  simpa using (h {} rfl).symm.trans (h' {} rfl)

theorem word {w : String} (h : IsWord w) : Split w.toList [.word w] := by
  intro s hs
  obtain ⟨hne, hinner⟩ := h
  rw [Tail.foldr_inner hinner, hs, List.append_nil]
  cases hw : w.toList with
  | nil => exact absurd (String.toList_eq_nil_iff.mp hw) hne
  | cons c cs => rw [Tail.pieces, ← hw, String.ofList_toList]; rfl

theorem blanks (h : Split cs ps) (hds : ∀ d ∈ ds, isSpace d = true) : Split (ds ++ cs) ps := by
  intro s hs
  induction ds with
  | nil => exact h s hs
  | cons d ds ih =>
    rw [List.cons_append, List.foldr_cons, Tail.push_space (hds d List.mem_cons_self)]
    exact ih fun c hc => hds c (List.mem_cons_of_mem d hc)

theorem append (h : Split cs ps) (h' : Split ds qs) (hbreak : ∃ d ∈ ds.head?, isBreak d = true) :
    Split (cs ++ ds) (ps ++ qs) := by
  intro s hs
  have hword : (ds.foldr Tail.push s).word = [] := by
    obtain ⟨d, hd, hbreak⟩ := hbreak
    obtain ⟨es, rfl⟩ := List.head?_eq_some_iff.mp hd
    exact Tail.word_push hbreak
  have hlater := h' s hs
  rw [Tail.pieces_of_word_nil hword] at hlater
  rw [List.foldr_append, h _ hword, hlater, List.append_assoc]

theorem brackets (h : Split cs ps) : Split ('(' :: cs ++ [')']) (.opening :: ps ++ [.closing]) := by
  have hclose : Split [')'] [.closing] := by
    intro s hs
    rw [← Tail.pieces_of_word_nil hs]
    rfl
  intro s hs
  have hrest := h.append hclose ⟨')', rfl, by decide⟩ s hs
  rw [List.cons_append, List.foldr_cons, List.cons_append, List.cons_append, ← hrest]
  rfl

end Split

end Piece

/-! ## Squeezed blanks -/

/-- The text with a single space in the place of each run of blanks. -/
def squeezed : List Char → List Char
  | [] => []
  | c :: cs =>
    if isSpace c then
      if cs.head?.any isSpace then squeezed cs else ' ' :: squeezed cs
    else c :: squeezed cs

open Piece in
theorem Piece.Tail.push_space_space {s : Tail} {cs : List Char} {c : Char}
    (hc : isSpace c = true) (hcs : cs.head?.any isSpace = true) :
    (cs.foldr push s).push c = cs.foldr push s := by
  cases cs with
  | nil => simp at hcs
  | cons d ds =>
    have hd : isSpace d = true := hcs
    rw [List.foldr_cons, push_space hd, push_space hc]
    rfl

theorem Piece.Tail.foldr_squeezed (s : Tail) (cs : List Char) :
    (squeezed cs).foldr push s = cs.foldr push s := by
  fun_induction squeezed cs with
  | case1 => rfl
  | case2 c cs hc hcs ih => rw [ih, List.foldr_cons, push_space_space hc hcs]
  | case3 c cs hc _ ih =>
    rw [List.foldr_cons, List.foldr_cons, ih, push_space hc, push_space (by decide)]
  | case4 c cs _ ih => rw [List.foldr_cons, List.foldr_cons, ih]

theorem Piece.split_squeezed {cs : List Char} {ps : List Piece} :
    Split (squeezed cs) ps ↔ Split cs ps := by
  simp only [Split, Tail.foldr_squeezed]

/-! ## The pieces of a type -/

/-- The piece that a token is written as. -/
def Token.piece : Token → Piece
  | name w => .word w
  | var w => .word w
  | arrow => .word "->"
  | lparen => .opening
  | rparen => .closing
  | junk => .word ""

namespace Piece

theorem isBreak_of_isWordChar {c : Char} (h : Token.isWordChar c = true) : isBreak c = false := by
  cases hbreak : isBreak c with
  | false => rfl
  | true =>
    simp only [isBreak, Bool.or_eq_true, decide_eq_true_eq] at hbreak
    rcases hbreak with (hspace | rfl) | rfl
    · rw [Token.isWordChar_of_isSpace hspace] at h
      exact h.symm
    all_goals
      rw [Token.isWordChar_ascii (by decide)] at h
      exact absurd h (by decide)

theorem isWord_of_chars {w : String} {first : Char} {rest : List Char}
    (hw : w.toList = first :: rest) (h : ∀ c ∈ first :: rest, Token.isWordChar c = true) :
    IsWord w := by
  refine ⟨fun hempty => ?_, fun c hc => isBreak_of_isWordChar (h c (hw ▸ hc))⟩
  rw [hempty] at hw
  cases hw

theorem Split.keyword : ∀ w ∈ ["->", "let", ":", "in"], Split w.toList [.word w] := by
  refine fun w hw => .word ?_
  fin_cases hw <;> simp [IsWord, isBreak, isSpace]

theorem Split.splitting : Token.Splitting Split Token.piece where
  name h := by
    obtain ⟨_, _, hw, -, hchars⟩ := h
    exact .word (isWord_of_chars hw hchars)
  var h := by
    obtain ⟨_, _, hw, -, hchars⟩ := h
    exact .word (isWord_of_chars hw hchars)
  arrow := by simpa [Token.piece] using keyword "->" (by simp)
  blanks := .blanks
  append h h' hblank := by
    obtain ⟨d, hd, hspace⟩ := hblank
    exact h.append h' ⟨d, hd, by simp [isBreak, hspace]⟩
  brackets := .brackets

end Piece

/-- The literals have names, and the variables have letters. -/
structure TyTerm.Legible (t : NamedTy) : Prop where
  literals : ∀ name ∈ t.literalNames, IsName name
  letters : ∀ v ∈ t.leaves, ∃ n, v = nthName n

theorem TyTerm.Legible.isVar {t : NamedTy} (h : t.Legible) : ∀ v ∈ t.leaves, IsVar v := by
  intro v hv
  obtain ⟨n, rfl⟩ := h.letters v hv
  exact nthName_isVar n

/-! ## The pieces of an expression -/

namespace PlainExpr

/-- The words and brackets that an expression is printed as. -/
def pieces : PlainExpr String String → List Piece
  | name w => [.word w]
  | app callee arg =>
    enclosedIf .opening .closing callee.isBinding callee.pieces ++
      enclosedIf .opening .closing (!arg.isName) arg.pieces
  | bind w ascribed body =>
    .word "let" :: .word w :: .word ":" ::
      (ascribed.tokens.map Token.piece ++ .word "in" :: body.pieces)

/-- Names are words other than the one that starts a binding, and types are legible. -/
structure Legible (e : PlainExpr String String) : Prop where
  names : ∀ w ∈ e.names, Piece.IsWord w ∧ w ≠ "let"
  types : ∀ t ∈ e.types, t.Legible

namespace Legible

variable {e e' : PlainExpr String String}

theorem callee (h : (app e e').Legible) : e.Legible where
  names w hw := h.names w (List.mem_append_left _ hw)
  types t ht := h.types t (List.mem_append_left _ ht)

theorem arg (h : (app e e').Legible) : e'.Legible where
  names w hw := h.names w (List.mem_append_right _ hw)
  types t ht := h.types t (List.mem_append_right _ ht)

theorem ascribed {w : String} {t : NamedTy} (h : (bind w t e).Legible) : t.Legible :=
  h.types t List.mem_cons_self

theorem body {w : String} {t : NamedTy} (h : (bind w t e).Legible) : e.Legible where
  names w hw := h.names w (List.mem_cons_of_mem _ hw)
  types t ht := h.types t (List.mem_cons_of_mem _ ht)

end Legible

/-- By induction over the expression: each layout of its document has its pieces. -/
theorem split_of_laidOut {e : PlainExpr String String} (he : e.Legible) (cs : List Char)
    (hcs : e.toDoc.LaidOut cs) : Piece.Split cs e.pieces := by
  have hS := Piece.Split.splitting
  induction e generalizing cs with
  | name w =>
    rw [toDoc] at hcs
    rw [hcs.of_text]
    exact .word (he.names w List.mem_cons_self).1
  | app callee arg ihc iha =>
    rw [toDoc] at hcs
    obtain ⟨_, es, rfl, hcs, harg⟩ := hcs.of_group.of_nest.of_cat
    obtain ⟨ds, blanks, rfl, hcallee, hline⟩ := hcs.of_cat
    have hcallee := hS.parensIf (ihc he.callee) hcallee
    have harg := hS.parensIf (iha he.arg) harg
    rw [List.append_assoc]
    exact hS.line hline hcallee harg
  | bind w ascribed body ih =>
    rw [toDoc] at hcs
    obtain ⟨_, bs, rfl, hcs, hbody⟩ := hcs.of_group.of_cat
    obtain ⟨_, blanks, rfl, hcs, hline⟩ := hcs.of_cat
    obtain ⟨_, _, rfl, hcs, hin⟩ := hcs.of_cat
    obtain ⟨_, ds, rfl, hcs, htype⟩ := hcs.of_cat
    obtain ⟨_, _, rfl, hcs, hcolon⟩ := hcs.of_cat
    obtain ⟨_, _, rfl, hcs, hname⟩ := hcs.of_cat
    obtain ⟨_, _, rfl, hlet, hspace⟩ := hcs.of_cat
    rw [hin.of_text, hcolon.of_text, hname.of_text, hlet.of_text, hspace.of_text]
    have htype := hS.toDoc he.ascribed.literals he.ascribed.isVar ds htype
    have hin := hS.line hline (Piece.Split.keyword "in" (by simp)) (ih he.body bs hbody)
    have hcolon := hS.spaced (Piece.Split.keyword ":" (by simp)) (hS.spaced htype hin)
    have hname := hS.spaced (Piece.Split.word (he.names w List.mem_cons_self).1) hcolon
    have hlet := hS.spaced (Piece.Split.keyword "let" (by simp)) hname
    simpa [pieces] using hlet

end PlainExpr

end BlockGraph
