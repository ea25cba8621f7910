import BlockGraph.Expr.Symbol
import BlockGraph.Proofs.Expr.Words

/-!
# Printed expressions are unambiguous

The words and brackets of a printed expression determine what it shows
(`PlainExpr.eq_of_pieces`).  Three things make this so.  The last argument of an
application is one word or stands in brackets, and no such operand ends with a shorter one
(`Piece.Operand.append_inj`).  A binding starts with a word that is no name.  And the type
in a binding ends at the first word that is neither a name of a literal nor a letter, with
its own words read as the tokens of one type only.

So two expressions that can be laid out as texts which agree up to blanks are the same when
tags are forgotten, up to one renaming of all their type variables.  The words `in` and `:`
may be used as names.
-/

namespace BlockGraph

open Token (isSpace IsName IsVar)

/-! ## Brackets -/

namespace Piece

/-- The depth after some pieces that start at a depth, unless they close more than is open. -/
def depth : Nat → List Piece → Option Nat
  | n, [] => some n
  | n, .opening :: ps => depth (n + 1) ps
  | 0, .closing :: _ => none
  | n + 1, .closing :: ps => depth n ps
  | n, .word _ :: ps => depth n ps

theorem depth_append (n : Nat) (ps qs : List Piece) :
    depth n (ps ++ qs) = (depth n ps).bind (depth · qs) := by
  fun_induction depth n ps <;> simp_all [depth]

/-- Brackets close what they open, and nothing else. -/
def Balanced (ps : List Piece) : Prop :=
  ∀ n, depth n ps = some n

namespace Balanced

variable {ps qs : List Piece}

theorem nil : Balanced [] := fun _ => rfl

theorem word (w : String) (h : Balanced ps) : Balanced (.word w :: ps) :=
  fun n => by rw [depth, h n]

theorem append (h : Balanced ps) (h' : Balanced qs) : Balanced (ps ++ qs) :=
  fun n => by rw [depth_append, h n, Option.bind_some, h' n]

theorem brackets (h : Balanced ps) : Balanced (.opening :: ps ++ [.closing]) :=
  fun n => by rw [List.cons_append, depth, depth_append, h (n + 1)]; rfl

theorem enclosedIf (condition : Bool) (h : Balanced ps) :
    Balanced (enclosedIf .opening .closing condition ps) := by
  cases condition with
  | false => exact h
  | true => exact h.brackets

end Balanced

/-- What can stand as an argument. -/
inductive Operand : List Piece → Prop
  | word (w : String) : Operand [.word w]
  | brackets {ps : List Piece} (h : Balanced ps) : Operand (.opening :: ps ++ [.closing])

namespace Operand

variable {as bs u v : List Piece}

theorem ne_nil (hu : Operand u) : u ≠ [] := by
  cases hu <;> simp

/-- An operand does not end with a shorter one: inside its brackets, that one would leave a bracket
open. -/
theorem eq_nil_of_append (hu : Operand u) (hv : Operand v) (h : as ++ u = v) : as = [] := by
  cases hv with
  | word w =>
    rcases List.append_eq_singleton_iff.mp h with ⟨has, -⟩ | ⟨-, hnil⟩
    · exact has
    · exact absurd hnil hu.ne_nil
  | @brackets ps hps =>
    cases hu with
    | word w =>
      obtain ⟨-, hlast⟩ := List.append_singleton_inj.mp h
      cases hlast
    | @brackets qs hqs =>
      rw [← List.append_assoc] at h
      obtain ⟨hinner, -⟩ := List.append_singleton_inj.mp h
      cases as with
      | nil => rfl
      | cons a as =>
        obtain ⟨rfl, rfl⟩ := List.cons.inj hinner
        have hdepth : depth 0 (as ++ .opening :: qs) = some 0 := hps 0
        rw [depth_append] at hdepth
        obtain ⟨n, -, hn⟩ := Option.bind_eq_some_iff.mp hdepth
        rw [depth, hqs (n + 1)] at hn
        cases hn

theorem append_inj (hu : Operand u) (hv : Operand v) (h : as ++ u = bs ++ v) :
    as = bs ∧ u = v := by
  rcases List.append_eq_append_iff.mp h with ⟨cs, rfl, hcs⟩ | ⟨cs, rfl, hcs⟩
  · obtain rfl := eq_nil_of_append hv hu hcs.symm
    exact ⟨by simp, by simpa using hcs⟩
  · obtain rfl := eq_nil_of_append hu hv hcs.symm
    exact ⟨by simp, by simpa using hcs.symm⟩

end Operand

end Piece

open Piece (Balanced Operand)

/-! ## Types between other words -/

theorem Grammar.Derives.balanced {X : Nonterminal} {ts : List Token} {m : X.Meaning}
    (h : Derives X ts m) : Balanced (ts.map Token.piece) := by
  induction h with
  | applied _ ih => exact ih
  | arrow _ _ ihd ihc => simpa [Token.piece] using ihd.append (ihc.word "->")
  | application _ ih => exact ih.word _
  | atom _ ih => exact ih
  | none => exact .nil
  | more _ _ ih iht => simpa using ih.append iht
  | var => exact Balanced.nil.word _
  | name => exact Balanced.nil.word _
  | brackets _ ih => simpa [Token.piece] using ih.brackets

/-- The token that a piece of a type is read as. -/
def Token.ofPiece : Piece → Token
  | .opening => lparen
  | .closing => rparen
  | .word w =>
    match w.toList with
    | [] => junk
    | ['-', '>'] => arrow
    | c :: cs => ofWord c cs

theorem forall_mem_enclosedIf {τ : Type} {P : τ → Prop} {opening closing : τ} {condition : Bool}
    {items : List τ} (hl : P opening) (hr : P closing) (h : ∀ a ∈ items, P a) :
    ∀ a ∈ enclosedIf opening closing condition items, P a := by
  cases condition with
  | false => exact h
  | true =>
    show ∀ a ∈ opening :: items ++ [closing], P a
    rw [List.forall_mem_append, List.forall_mem_cons, List.forall_mem_singleton]
    exact ⟨⟨hl, h⟩, hr⟩

namespace TyTerm

/-- What holds of the marks, of the names of literals and of the variables holds of all tokens. -/
theorem forall_mem_tokens {P : Token → Prop} (hl : P .lparen) (hr : P .rparen) (ha : P .arrow)
    {t : NamedTy} (hnames : ∀ name ∈ t.literalNames, P (.name name))
    (hvars : ∀ v ∈ t.leaves, P (.var v)) : ∀ token ∈ t.tokens, P token := by
  induction t using TyTerm.induct with
  | var v => simpa [tokens] using hvars v (by simp [leaves])
  | lit name args ih =>
    have hargs : ∀ token ∈ argTokens args, P token := by
      rw [literalNames_lit] at hnames
      rw [leaves_lit] at hvars
      replace hnames := (List.forall_mem_cons.mp hnames).2
      induction args with
      | nil => simp [argTokens]
      | cons arg args ihargs =>
        rw [List.flatMap_cons, List.forall_mem_append] at hnames hvars
        rw [argTokens, List.forall_mem_append]
        exact ⟨forall_mem_enclosedIf hl hr (ih arg List.mem_cons_self hnames.1 hvars.1),
          ihargs (fun t ht => ih t (List.mem_cons_of_mem arg ht)) hvars.2 hnames.2⟩
    rw [tokens, List.forall_mem_cons]
    exact ⟨hnames name (by rw [literalNames_lit]; exact List.mem_cons_self), hargs⟩
  | fn domain codomain ihd ihc =>
    rw [literalNames, List.forall_mem_append] at hnames
    rw [leaves, List.forall_mem_append] at hvars
    rw [tokens, List.forall_mem_append, List.forall_mem_cons]
    exact ⟨forall_mem_enclosedIf hl hr (ihd hnames.1 hvars.1), ha, ihc hnames.2 hvars.2⟩

end TyTerm

namespace Token

variable {w : String}

theorem ofPiece_word {c : Char} {rest : List Char} (hw : w.toList = c :: rest) (hc : c ≠ '-') :
    ofPiece (.word w) = ofWord c rest := by
  rw [ofPiece, hw]
  split
  next heq => cases heq
  next heq => exact absurd (List.cons.inj heq).1 hc
  next heq =>
    obtain ⟨rfl, rfl⟩ := List.cons.inj heq
    rfl

theorem ofPiece_name (h : IsName w) : ofPiece (.word w) = .name w := by
  obtain ⟨c, rest, hw, hc, -⟩ := h
  have hdash : c ≠ '-' := by
    rintro rfl
    simp [Text.isUppercase_ascii] at hc
  rw [ofPiece_word hw hdash, ofWord_of_upper hc, ← hw, String.ofList_toList]

theorem ofPiece_var (h : IsVar w) : ofPiece (.word w) = .var w := by
  obtain ⟨c, rest, hw, hc, -⟩ := h
  have hdash : c ≠ '-' := by
    rintro rfl
    simp [Text.isLowercase_ascii] at hc
  rw [ofPiece_word hw hdash, ofWord_of_lower hc, ← hw, String.ofList_toList]

end Token

theorem nthName_ne_in (n : Nat) : nthName n ≠ "in" := by
  intro h
  have hchars : (nthName n).toList = ['i', 'n'] := by rw [h]; simp
  rw [toList_nthName] at hchars
  obtain ⟨-, hrest⟩ := List.cons.inj hchars
  split at hrest
  · cases hrest
  · rw [Nat.toString_eq_ofList_toDigits, String.toList_ofList] at hrest
    have hmem : 'n' ∈ Nat.toDigits 10 (n / 26) := by simp [hrest]
    have hdigit := Nat.isDigit_of_mem_toDigits (by decide) (by decide) hmem
    exact absurd hdigit (by decide)

namespace TyTerm.Legible

variable {t t' : NamedTy}

theorem map_ofPiece_tokens (h : t.Legible) :
    (t.tokens.map Token.piece).map Token.ofPiece = t.tokens := by
  have hread : ∀ token ∈ t.tokens, Token.ofPiece token.piece = token := by
    refine forall_mem_tokens ?_ ?_ ?_ ?_ ?_
    · rfl
    · rfl
    · simp [Token.piece, Token.ofPiece]
    · exact fun name hname => Token.ofPiece_name (h.literals name hname)
    · exact fun v hv => Token.ofPiece_var (h.isVar v hv)
  rw [List.map_map]
  exact (List.map_congr_left hread).trans (List.map_id _)

theorem eq_of_pieces (h : t.Legible) (h' : t'.Legible)
    (heq : t.tokens.map Token.piece = t'.tokens.map Token.piece) : t = t' := by
  have htokens : t.tokens = t'.tokens := by
    rw [← h.map_ofPiece_tokens, heq, h'.map_ofPiece_tokens]
  exact Reader.derives_unique (Grammar.Phrased.tokens t).type
    (htokens ▸ (Grammar.Phrased.tokens t').type)

theorem in_notMem_pieces (h : t.Legible) : Piece.word "in" ∉ t.tokens.map Token.piece := by
  have hne : ∀ token ∈ t.tokens, token.piece ≠ .word "in" := by
    refine forall_mem_tokens ?_ ?_ ?_ ?_ ?_
    · simp [Token.piece]
    · simp [Token.piece]
    · simp [Token.piece]
    · intro name hname hin
      obtain ⟨c, rest, hchars, hc, -⟩ := h.literals name hname
      obtain rfl := Piece.word.inj hin
      have hchars : ['i', 'n'] = c :: rest := by simpa using hchars
      obtain ⟨rfl, -⟩ := List.cons.inj hchars
      simp [Text.isUppercase_ascii] at hc
    · intro v hv hin
      obtain ⟨n, rfl⟩ := h.letters v hv
      exact nthName_ne_in n (Piece.word.inj hin)
  intro hmem
  obtain ⟨token, htoken, hpiece⟩ := List.mem_map.mp hmem
  exact hne token htoken hpiece

end TyTerm.Legible

/-! ## The expression that some pieces show -/

namespace PlainExpr

variable {e e' : PlainExpr String String}

theorem balanced (e : PlainExpr String String) : Balanced e.pieces := by
  induction e with
  | name w => exact Balanced.nil.word w
  | app callee arg ihc iha => exact (ihc.enclosedIf _).append (iha.enclosedIf _)
  | bind w ascribed body ih =>
    have htype := (Grammar.Phrased.tokens ascribed).type.balanced
    exact (((htype.append (ih.word "in")).word ":").word w).word "let"

theorem operand (e : PlainExpr String String) :
    Operand (enclosedIf .opening .closing (!e.isName) e.pieces) := by
  cases e with
  | name w => exact .word w
  | app callee arg => exact .brackets (balanced _)
  | bind w ascribed body => exact .brackets (balanced _)

theorem pieces_ne_nil (e : PlainExpr String String) : e.pieces ≠ [] := by
  cases e with
  | name w => simp [pieces]
  | app callee arg => simp [pieces, (operand arg).ne_nil]
  | bind w ascribed body => simp [pieces]

theorem head_ne_let (he : e.Legible) (h : e.isBinding = false) :
    e.pieces.head? ≠ some (.word "let") := by
  induction e with
  | name w => simpa [pieces] using (he.names w List.mem_cons_self).2
  | app callee arg ihc _ =>
    rw [pieces]
    cases hcallee : callee.isBinding with
    | true => simp [enclosedIf]
    | false =>
      rw [List.head?_append_of_ne_nil _ (by simpa [enclosedIf] using pieces_ne_nil callee)]
      simpa [enclosedIf] using ihc he.callee hcallee
  | bind => cases h

theorem not_operand_app {callee arg : PlainExpr String String} :
    ¬Operand (app callee arg).pieces := by
  intro h
  have hnil := (@Operand.append_inj [] _ _ _ h (operand arg) rfl).1
  have hcallee := pieces_ne_nil callee
  cases hb : callee.isBinding <;> simp [hb, enclosedIf, hcallee] at hnil

theorem pieces_ne_brackets {ps : List Piece} (h : e.isBinding = false) (hps : Balanced ps) :
    e.pieces ≠ .opening :: ps ++ [.closing] := by
  intro heq
  cases e with
  | name w => simp [pieces] at heq
  | app callee arg => exact not_operand_app (heq ▸ Operand.brackets hps)
  | bind => cases h

/-- Brackets that were put around an expression can be told from its own. -/
theorem pieces_of_enclosedIf {condition condition' : Bool}
    (hc : condition = false → e.isBinding = false)
    (hc' : condition' = false → e'.isBinding = false)
    (h : enclosedIf .opening .closing condition e.pieces =
      enclosedIf .opening .closing condition' e'.pieces) : e.pieces = e'.pieces := by
  cases condition <;> cases condition' <;> simp only [enclosedIf] at h
  · exact h
  · exact absurd h (pieces_ne_brackets (hc rfl) (balanced e'))
  · exact absurd h.symm (pieces_ne_brackets (hc' rfl) (balanced e))
  · simpa using h

theorem not_isBinding_of_isName (h : (!e.isName) = false) : e.isBinding = false := by
  cases e <;> simp_all [isName, isBinding]

/-- Two lists with a mark that is new to each of them agree before and after the mark. -/
theorem append_cons_inj {α : Type} {a : α} {xs xs' ys ys' : List α} (h : a ∉ xs) (h' : a ∉ xs')
    (heq : xs ++ a :: ys = xs' ++ a :: ys') : xs = xs' ∧ ys = ys' := by
  induction xs generalizing xs' with
  | nil =>
    cases xs' with
    | nil => simpa using heq
    | cons x' xs' => exact absurd (by simp [(List.cons.inj heq).1]) h'
  | cons x xs ih =>
    cases xs' with
    | nil => exact absurd (by simp [(List.cons.inj heq).1]) h
    | cons x' xs' =>
      obtain ⟨rfl, hrest⟩ := List.cons.inj heq
      obtain ⟨rfl, rfl⟩ := ih (fun hmem => h (List.mem_cons_of_mem x hmem))
        (fun hmem => h' (List.mem_cons_of_mem x hmem)) hrest
      exact ⟨rfl, rfl⟩

/-- No two expressions are printed as the same pieces, by induction over the first of them. -/
theorem eq_of_pieces (he : e.Legible) (he' : e'.Legible) (h : e.pieces = e'.pieces) : e = e' := by
  induction e generalizing e' with
  | name w =>
    cases e' with
    | name w' => simpa [pieces] using h
    | app callee' arg' =>
      have hname : Operand (name w).pieces := .word w
      exact absurd (h ▸ hname) not_operand_app
    | bind w' ascribed' body' => simp [pieces] at h
  | app callee arg ihc iha =>
    cases e' with
    | name w' =>
      have hname : Operand (name w').pieces := .word w'
      exact absurd (h ▸ hname) not_operand_app
    | app callee' arg' =>
      -- The last operand is the argument, and what stands before it is the callee.
      obtain ⟨hcallee, harg⟩ := (operand arg).append_inj (operand arg') h
      have hcallee := pieces_of_enclosedIf id id hcallee
      have harg := pieces_of_enclosedIf not_isBinding_of_isName not_isBinding_of_isName harg
      rw [ihc he.callee he'.callee hcallee, iha he.arg he'.arg harg]
    | bind w' ascribed' body' => exact absurd (by rw [h]; rfl) (head_ne_let he rfl)
  | bind w ascribed body ih =>
    cases e' with
    | name w' => simp [pieces] at h
    | app callee' arg' => exact absurd (by rw [← h]; rfl) (head_ne_let he' rfl)
    | bind w' ascribed' body' =>
      simp only [pieces, List.cons.injEq, Piece.word.injEq, true_and] at h
      obtain ⟨rfl, h⟩ := h
      -- The first `in` after the name ends the type, also if names of the body are called so.
      obtain ⟨htype, hbody⟩ := append_cons_inj he.ascribed.in_notMem_pieces
        he'.ascribed.in_notMem_pieces h
      rw [he.ascribed.eq_of_pieces he'.ascribed htype, ih he.body he'.body hbody]

end PlainExpr

/-! ## Names that come from a table -/

namespace SymbolTable

/-- The table after names have been interned one after another. -/
def interned (names : List String) : SymbolTable :=
  names.foldl (fun table name => (table.intern name).2) {}

theorem nodup_intern {table : SymbolTable} (h : table.names.Nodup) (name : String) :
    (table.intern name).2.names.Nodup := by
  rw [intern]
  split
  · exact h
  next hnone =>
    have hnew : name ∉ table.names := List.idxOf?_eq_none_iff.mp hnone
    exact h.append (List.nodup_singleton name) (List.disjoint_singleton.mpr hnew)

theorem nodup_interned (names : List String) : (interned names).names.Nodup := by
  rw [interned]
  exact List.foldlRecOn (motive := fun table : SymbolTable => table.names.Nodup) names _
    List.nodup_nil fun table h name _ => nodup_intern h name

theorem get?_text {table : SymbolTable} (h : table.names.Nodup) {a : Symbol}
    (ha : (table.resolve? a).isSome) : table.get? (table.text a) = some a := by
  obtain ⟨w, hw⟩ := Option.isSome_iff_exists.mp ha
  obtain ⟨hlt, hget⟩ := List.getElem?_eq_some_iff.mp hw
  rw [text, hw, Option.getD_some, get?, List.idxOf?_eq_some_iff]
  refine ⟨hlt, hget, fun j hj heq => ?_⟩
  exact hj.ne (h.getElem_inj_iff.mp (heq.trans hget.symm))

end SymbolTable

/-! ## Texts -/

namespace Expr

variable {α β : Type}

/-- Names are shown as words other than the one that starts a binding, and the literals of types
have names. -/
structure Legible (text : α → String) (e : Expr α) : Prop where
  names : ∀ a ∈ e.plain.names, Piece.IsWord (text a) ∧ text a ≠ "let"
  literals : ∀ t ∈ e.plain.types, ∀ name ∈ t.literalNames, IsName name

variable {text : α → String} {text' : β → String} {e : Expr α} {e' : Expr β}

theorem Legible.shown (h : e.Legible text) (names : VarNames) :
    (e.plain.map text names.name).Legible where
  names w hw := by
    rw [PlainExpr.names_map] at hw
    obtain ⟨a, ha, rfl⟩ := List.mem_map.mp hw
    exact h.names a ha
  types t ht := by
    rw [PlainExpr.types_map] at ht
    obtain ⟨u, hu, rfl⟩ := List.mem_map.mp ht
    refine ⟨fun name hname => ?_, fun v hv => ?_⟩
    · rw [TyTerm.literalNames_map] at hname
      exact h.literals u hu name hname
    · rw [TyTerm.leaves_map] at hv
      obtain ⟨w, -, rfl⟩ := List.mem_map.mp hv
      exact ⟨_, rfl⟩

/-- The expression can be laid out as a text, with line ends or spaces where its document may break.
-/
def Shown (text : α → String) (e : Expr α) (cs : List Char) : Prop :=
  (docWith text e .none).1.LaidOut cs

theorem shown_textAt (width : Nat) (text : α → String) (e : Expr α) :
    e.Shown text (e.textAt width text).toList :=
  Doc.render_laidOut width _

theorem Legible.split (h : e.Legible text) {cs : List Char} (hcs : e.Shown text cs) :
    Piece.Split cs (e.plain.map text (e.lettering text).name).pieces := by
  rw [Shown, docWith_eq text e .none (List.prefix_refl _)] at hcs
  exact PlainExpr.split_of_laidOut (h.shown _) _ hcs

/-- The pieces of a text fix the plain form up to the choice of variables. -/
theorem exists_perm_of_squeezed (he : e.Legible text) (he' : e'.Legible text')
    {cs ds : List Char} (hcs : e.Shown text cs) (hds : e'.Shown text' ds)
    (h : squeezed cs = squeezed ds) :
    ∃ π : Equiv.Perm TyVar, e.plain.map text π = e'.plain.map text' id := by
  have hsplit := Piece.split_squeezed.mpr (he.split hcs)
  rw [h, Piece.split_squeezed] at hsplit
  have hpieces := hsplit.unique (he'.split hds)
  have hshown := PlainExpr.eq_of_pieces (he.shown _) (he'.shown _) hpieces
  refine PlainExpr.exists_perm_of_map_eq ?_ ?_ hshown
  · exact fun v hv w _ => VarNames.name_inj (mem_used_docWith text .none hv)
  · exact fun v hv w _ => VarNames.name_inj (mem_used_docWith text' .none hv)

/-- Expressions that are laid out as texts with the same words have the same plain form, up to one
renaming of the variables of all types.  The names are the same as texts, and if one table has
interned them, as symbols.  Printing at any width gives such a text. -/
theorem textAt_unambiguous :
    (∀ {α : Type} (width : Nat) (text : α → String) (e : Expr α),
      e.Shown text (e.textAt width text).toList) ∧
    (∀ {α β : Type} {text : α → String} {text' : β → String} {e : Expr α} {e' : Expr β}
      {cs ds : List Char}, e.Legible text → e'.Legible text' →
      e.Shown text cs → e'.Shown text' ds → squeezed cs = squeezed ds →
      ∃ π : Equiv.Perm TyVar, e.plain.map text π = e'.plain.map text' id) ∧
    ∀ {names : List String} {e e' : Expr Symbol} {cs ds : List Char},
      let table := SymbolTable.interned names
      e.Legible table.text → e'.Legible table.text →
      (∀ a ∈ e.plain.names ++ e'.plain.names, (table.resolve? a).isSome) →
      e.Shown table.text cs → e'.Shown table.text ds → squeezed cs = squeezed ds →
      ∃ π : Equiv.Perm TyVar, e.plain.map id π = e'.plain := by
  refine ⟨shown_textAt, fun he he' hcs hds h => exists_perm_of_squeezed he he' hcs hds h, ?_⟩
  intro names e e' cs ds table he he' hknown hcs hds h
  obtain ⟨π, hπ⟩ := exists_perm_of_squeezed he he' hcs hds h
  refine ⟨π, ?_⟩
  rw [List.forall_mem_append] at hknown
  -- The table leads from the texts of names back to the symbols.
  let back : String → Symbol := fun w => (table.get? w).getD 0
  have hback : ∀ a : Symbol, (table.resolve? a).isSome → back (table.text a) = a := by
    intro a ha
    show (table.get? (table.text a)).getD 0 = a
    rw [SymbolTable.get?_text (SymbolTable.nodup_interned names) ha, Option.getD_some]
  calc e.plain.map id π = e.plain.map (back ∘ table.text) (id ∘ π) :=
        PlainExpr.map_congr (fun a ha => (hback a (hknown.1 a ha)).symm) fun _ _ => rfl
    _ = (e.plain.map table.text π).map back id := (PlainExpr.map_map _ _ _ _ _).symm
    _ = e'.plain.map (back ∘ table.text) (id ∘ id) := by rw [hπ, PlainExpr.map_map]
    _ = e'.plain.map id id :=
        PlainExpr.map_congr (fun a ha => hback a (hknown.2 a ha)) fun _ _ => rfl
    _ = e'.plain := PlainExpr.map_id _

/-- A binding whose body has a binding as its last argument. -/
def nested (tag : Option SocketId) (leaf : Symbol → Expr Symbol) (v w : TyVar) : Expr Symbol :=
  .bind tag 0 (.fn (.var v) (.lit "List" [.var w]))
    (.app tag (.app tag (leaf 0) (leaf 1)) (.bind tag 1 (.var w) (leaf 2)))

/-- The two expressions are printed at different widths and have other tags and variables. -/
theorem textAt_unambiguous_nested :
    let table := SymbolTable.interned ["f", "x", "1"]
    let e := nested none (.var none) 3 5
    let e' := nested (some 4) (.lit (some 9)) 7 3
    e.textAt 12 table.text = "let f : b ->\nList a in\nf x\n  (let x : a in\n  1)" ∧
      e'.textAt 80 table.text = "let f : b -> List a in f x (let x : a in 1)" ∧
      (∃ π : Equiv.Perm TyVar, e.plain.map table.text π = e'.plain.map table.text id) ∧
      ∃ π : Equiv.Perm TyVar, e.plain.map id π = e'.plain := by
  intro table e e'
  have htext : e.textAt 12 table.text = "let f : b ->\nList a in\nf x\n  (let x : a in\n  1)" := by
    decide +kernel
  have htext' : e'.textAt 80 table.text = "let f : b -> List a in f x (let x : a in 1)" := by
    decide +kernel
  have hname : Token.IsName "List" :=
    ⟨'L', ['i', 's', 't'], by simp, .inr (by simp [Text.isUppercase_ascii]),
      by simp [Token.isWordChar_ascii]⟩
  have hwords : ∀ a ∈ [0, 0, 1, 1, 2], Piece.IsWord (table.text a) ∧ table.text a ≠ "let" := by
    have htable : table.names = ["f", "x", "1"] := by decide
    simp [SymbolTable.text, SymbolTable.resolve?, htable, Piece.IsWord, Piece.isBreak, isSpace]
  have hliterals : ∀ v w : TyVar, ∀ t ∈ [TyTerm.fn (.var v) (.lit "List" [.var w]), .var w],
      ∀ name ∈ t.literalNames, IsName name := by
    simp [TyTerm.literalNames, TyTerm.literalNamesAll, hname]
  have he : e.Legible table.text := ⟨hwords, hliterals 3 5⟩
  have he' : e'.Legible table.text := ⟨hwords, hliterals 7 3⟩
  have hsame : squeezed (e.textAt 12 table.text).toList =
      squeezed (e'.textAt 80 table.text).toList := by
    rw [htext, htext']
    simp [squeezed, isSpace]
  obtain ⟨hshown, hsame_plain, hsame_symbols⟩ := textAt_unambiguous
  exact ⟨htext, htext', hsame_plain he he' (hshown 12 _ e) (hshown 80 _ e') hsame,
    hsame_symbols he he' (by decide) (hshown 12 _ e) (hshown 80 _ e') hsame⟩

end Expr

end BlockGraph
