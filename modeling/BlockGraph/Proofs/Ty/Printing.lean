import BlockGraph.Proofs.Ty.Grammar
import BlockGraph.Proofs.Ty.Names
import BlockGraph.Ty.Printer

/-!
# Printed types are read back

`Doc.LaidOut` relates a document to every text that it can be written as: each line end
is a space, or a new line with any indentation.  Which line ends are taken depends on the
width, but what is rendered is always one of these texts (`Doc.render_laidOut`).

All texts of a type's document split into the same tokens (`TyTerm.tokens`), because blanks
mean nothing between words (`Token.Splitting.toDoc`).  The tokens are a phrase of the grammar
that denotes the type, because brackets stand wherever the grammar asks for an atom or an
operand (`Grammar.Phrased.tokens`).  So all texts of a type are read alike, and what is read
is the type up to the choice of its variables.
-/

namespace BlockGraph

/-! ## Layouts -/

namespace Doc

variable {cs : List Char} {d : Doc}

/-- The texts that a document can be written as. -/
inductive LaidOut : Doc → List Char → Prop
  | empty : LaidOut .empty []
  | text (s : String) : LaidOut (.text s) s.toList
  | space : LaidOut .line [' ']
  | newline (indent : Nat) : LaidOut .line ('\n' :: List.replicate indent ' ')
  | cat {a b : Doc} {cs ds : List Char} (ha : LaidOut a cs) (hb : LaidOut b ds) :
      LaidOut (.cat a b) (cs ++ ds)
  | nest {amount : Nat} {d : Doc} {cs : List Char} (h : LaidOut d cs) : LaidOut (.nest amount d) cs
  | group {d : Doc} {cs : List Char} (h : LaidOut d cs) : LaidOut (.group d) cs

/-- The texts that documents can be written as, one after another. -/
def ItemsLaidOut : List Item → List Char → Prop
  | [], cs => cs = []
  | item :: items, cs => ∃ ds es, cs = ds ++ es ∧ LaidOut item.doc ds ∧ ItemsLaidOut items es

theorem toList_pushn (s : String) (c : Char) (n : Nat) :
    (s.pushn c n).toList = s.toList ++ List.replicate n c := by
  rw [String.pushn]
  induction n with
  | zero => simp [Nat.repeat]
  | succ n ih => rw [Nat.repeat, String.toList_push, ih, List.replicate_succ', List.append_assoc]

/-- Line ends are spaces or new lines in each mode, and modes change nothing else. -/
theorem layout_laidOut (width column : Nat) (items : List Item) :
    ItemsLaidOut items ((layout width column items).flatMap String.toList) := by
  induction column, items using layout.induct width with
  | case1 column => rw [layout]; rfl
  | case2 column i m rest ih => rw [layout]; exact ⟨[], _, rfl, .empty, ih⟩
  | case3 column i m s rest ih => rw [layout]; exact ⟨_, _, rfl, .text s, ih⟩
  | case4 column i rest ih => rw [layout]; exact ⟨_, _, rfl, .space, ih⟩
  | case5 column i rest ih =>
    rw [layout, List.flatMap_cons, List.flatMap_cons, toList_pushn, ← List.append_assoc]
    exact ⟨_, _, rfl, .newline i, ih⟩
  | case6 column i m a b rest ih =>
    rw [layout]
    obtain ⟨cs, _, hcs, ha, ds, es, rfl, hb, hrest⟩ := ih
    exact ⟨cs ++ ds, es, by rw [hcs, List.append_assoc], .cat ha hb, hrest⟩
  | case7 column i m k d rest ih =>
    rw [layout]
    obtain ⟨cs, ds, hcs, hd, hrest⟩ := ih
    exact ⟨cs, ds, hcs, .nest hd, hrest⟩
  | case8 column i d rest ih =>
    rw [layout]
    obtain ⟨cs, ds, hcs, hd, hrest⟩ := ih
    exact ⟨cs, ds, hcs, .group hd, hrest⟩
  | case9 column i d rest hfits ih =>
    simp only [List.map_subtype, List.unattach_attach] at hfits
    rw [layout, if_pos hfits]
    obtain ⟨cs, ds, hcs, hd, hrest⟩ := ih
    exact ⟨cs, ds, hcs, .group hd, hrest⟩
  | case10 column i d rest hfits ih =>
    simp only [List.map_subtype, List.unattach_attach] at hfits
    rw [layout, if_neg hfits]
    obtain ⟨cs, ds, hcs, hd, hrest⟩ := ih
    exact ⟨cs, ds, hcs, .group hd, hrest⟩

theorem render_laidOut (width : Nat) (d : Doc) : LaidOut d (d.render width).toList := by
  obtain ⟨cs, ds, hcs, hd, rfl⟩ := layout_laidOut width 0 [⟨0, .broken, d⟩]
  rw [List.append_nil] at hcs
  rwa [render, String.toList_join, hcs]

theorem LaidOut.of_cat {a b : Doc} (h : LaidOut (a ++ b) cs) :
    ∃ ds es, cs = ds ++ es ∧ LaidOut a ds ∧ LaidOut b es := by
  obtain _ | _ | _ | _ | ⟨ha, hb⟩ := h
  exact ⟨_, _, rfl, ha, hb⟩

theorem LaidOut.of_text {s : String} (h : LaidOut (.text s) cs) : cs = s.toList := by
  cases h
  rfl

theorem LaidOut.of_group (h : LaidOut (.group d) cs) : LaidOut d cs := by
  cases h
  assumption

theorem LaidOut.of_nest {amount : Nat} (h : LaidOut (.nest amount d) cs) : LaidOut d cs := by
  cases h
  assumption

theorem LaidOut.of_parens (h : LaidOut d.parens cs) :
    ∃ ds, cs = '(' :: ds ++ [')'] ∧ LaidOut d ds := by
  obtain ⟨_, _, rfl, h, hclose⟩ := h.of_cat
  obtain ⟨_, ds, rfl, hopen, hd⟩ := h.of_cat
  rw [hopen.of_text, hclose.of_text]
  exact ⟨ds, by simp, hd⟩

theorem LaidOut.of_line (h : LaidOut .line cs) :
    ∃ c ds, cs = c :: ds ∧ ∀ d ∈ cs, Token.isSpace d = true := by
  cases h with
  | space => exact ⟨' ', [], rfl, by simp [Token.isSpace]⟩
  | newline indent => exact ⟨'\n', _, rfl, by simp [Token.isSpace]⟩

end Doc

/-! ## Texts that spell tokens -/

namespace Token

/-- Whether a text cannot go on with the word that stands before it. -/
def EndsWord (cs : List Char) : Prop :=
  ∀ c ∈ cs.head?, isWordChar c = false

/-- A text that splits into the tokens wherever its last word ends with it. -/
def Spells (cs : List Char) (ts : List Token) : Prop :=
  ∀ ds us, EndsWord ds → Lexed ds us → Lexed (cs ++ ds) (ts ++ us)

/-- A word that is a name by its first character. -/
def IsName (word : String) : Prop :=
  ∃ first rest, word.toList = first :: rest ∧ (first = '_' ∨ Text.isUppercase first = true) ∧
    ∀ c ∈ first :: rest, isWordChar c = true

/-- A word that is a variable by its first character. -/
def IsVar (word : String) : Prop :=
  ∃ first rest, word.toList = first :: rest ∧ Text.isLowercase first = true ∧
    ∀ c ∈ first :: rest, isWordChar c = true

theorem isWordChar_of_isSpace {c : Char} (h : isSpace c = true) : isWordChar c = false := by
  have hc : c = ' ' ∨ c = '\t' ∨ c = '\r' ∨ c = '\n' := by simpa [isSpace, or_assoc] using h
  rcases hc with rfl | rfl | rfl | rfl <;> rw [isWordChar_ascii (by decide)] <;> decide

theorem endsWord_cons {c : Char} {cs : List Char} :
    EndsWord (c :: cs) ↔ isWordChar c = false := by
  simp [EndsWord]

namespace Spells

variable {cs ds : List Char} {ts us : List Token}

theorem lexed (h : Spells cs ts) : Lexed cs ts := by
  have hall := h [] [] (by simp [EndsWord]) .nil
  rwa [List.append_nil, List.append_nil] at hall

theorem nil : Spells [] [] := fun _ _ _ h => h

theorem name {word : String} (h : IsName word) : Spells word.toList [.name word] := by
  obtain ⟨first, rest, hchars, hfirst, hword⟩ := h
  intro ds us hend hds
  have hlexed := Lexed.name hword hend hfirst hds
  rwa [← hchars, String.ofList_toList] at hlexed

theorem var {word : String} (h : IsVar word) : Spells word.toList [.var word] := by
  obtain ⟨first, rest, hchars, hfirst, hword⟩ := h
  intro ds us hend hds
  have hlexed := Lexed.var hword hend hfirst hds
  rwa [← hchars, String.ofList_toList] at hlexed

theorem append (h : Spells cs ts) (h' : Spells ds us) (hend : EndsWord ds) :
    Spells (cs ++ ds) (ts ++ us) := by
  intro es vs hes hlexed
  rw [List.append_assoc, List.append_assoc]
  refine h _ _ ?_ (h' es vs hes hlexed)
  cases ds with
  | nil => exact hes
  | cons d ds => exact endsWord_cons.mpr (endsWord_cons.mp hend)

theorem blanks (h : Spells cs ts) (hds : ∀ d ∈ ds, isSpace d = true) : Spells (ds ++ cs) ts := by
  intro es vs hes hlexed
  induction ds with
  | nil => exact h es vs hes hlexed
  | cons d ds ih =>
    exact .blank (hds d List.mem_cons_self) (ih fun c hc => hds c (List.mem_cons_of_mem d hc))

theorem arrow (h : Spells cs ts) : Spells ('-' :: '>' :: cs) (.arrow :: ts) :=
  fun es vs hes hlexed => .arrow (h es vs hes hlexed)

theorem brackets (h : Spells cs ts) : Spells ('(' :: cs ++ [')']) (.lparen :: ts ++ [.rparen]) := by
  have hclose : Spells [')'] [.rparen] := fun _ _ _ hlexed => .rparen hlexed
  have hrest := h.append hclose (endsWord_cons.mpr (by rw [isWordChar_ascii (by decide)]; decide))
  exact fun es vs hes hlexed => .lparen (hrest es vs hes hlexed)

end Spells

end Token

/-! ## The tokens of a printed type -/

/-- A list between two items if the condition holds. -/
def enclosedIf {τ : Type} (opening closing : τ) (condition : Bool) (items : List τ) : List τ :=
  if condition then opening :: items ++ [closing] else items

theorem map_enclosedIf {τ σ : Type} (f : τ → σ) (opening closing : τ) (condition : Bool)
    (items : List τ) : (enclosedIf opening closing condition items).map f =
      enclosedIf (f opening) (f closing) condition (items.map f) := by
  cases condition <;> simp [enclosedIf]

namespace TyTerm

mutual

def tokens : NamedTy → List Token
  | var v => [.var v]
  | lit name args => .name name :: argTokens args
  | fn domain codomain =>
    enclosedIf .lparen .rparen domain.isArrow (tokens domain) ++ .arrow :: tokens codomain

def argTokens : List NamedTy → List Token
  | [] => []
  | arg :: args => enclosedIf .lparen .rparen (!arg.isAtom) (tokens arg) ++ argTokens args

end

end TyTerm

namespace Grammar

theorem Derives.atoms_cons {us : List Token} {t : NamedTy} (ht : Derives .atom us t)
    {ts : List Token} {args : List NamedTy} (h : Derives .atoms ts args) :
    Derives .atoms (us ++ ts) (t :: args) := by
  induction args using List.reverseRecOn generalizing ts with
  | nil =>
    generalize hargs : ([] : List NamedTy) = args at h
    cases h with
    | none => simpa using Derives.more .none ht
    | more => simp at hargs
  | append_singleton args u ih =>
    generalize hargs : args ++ [u] = args' at h
    cases h with
    | none => simp at hargs
    | more h hu =>
      obtain ⟨rfl, rfl⟩ := List.append_singleton_inj.mp hargs
      simpa using (ih h).more hu

/-- A phrase that denotes the type, and that may stand where the head of the type allows it. -/
structure Phrased (ts : List Token) (t : NamedTy) : Prop where
  type : Derives .type ts t
  applied : t.isArrow = false → Derives .applied ts t
  atom : t.isAtom = true → Derives .atom ts t

namespace Phrased

variable {ts : List Token} {t : NamedTy}

theorem of_atom (h : Derives .atom ts t) : Phrased ts t :=
  ⟨.applied (.atom h), fun _ => .atom h, fun _ => h⟩

theorem argument (h : Phrased ts t) :
    Derives .atom (enclosedIf .lparen .rparen (!t.isAtom) ts) t := by
  cases hatom : t.isAtom with
  | true => exact h.atom hatom
  | false => exact .brackets h.type

theorem domain (h : Phrased ts t) :
    Derives .applied (enclosedIf .lparen .rparen t.isArrow ts) t := by
  cases harrow : t.isArrow with
  | false => exact h.applied harrow
  | true => exact .atom (.brackets h.type)

theorem arguments {args : List NamedTy} (h : ∀ t ∈ args, Phrased t.tokens t) :
    Derives .atoms (TyTerm.argTokens args) args := by
  induction args with
  | nil => exact .none
  | cons t rest ih =>
    have hrest := ih fun u hu => h u (List.mem_cons_of_mem t hu)
    exact (h t List.mem_cons_self).argument.atoms_cons hrest

/-- Brackets stand wherever the grammar asks for an atom or an operand. -/
theorem tokens (t : NamedTy) : Phrased t.tokens t := by
  induction t using TyTerm.induct with
  | var v => exact of_atom .var
  | lit name args ih =>
    cases args with
    | nil => exact of_atom .name
    | cons arg args =>
      have happlied : Derives .applied _ (.lit name (arg :: args)) := .application (arguments ih)
      exact ⟨.applied happlied, fun _ => happlied, fun h => by simp [TyTerm.isAtom] at h⟩
  | fn domain codomain ihd ihc =>
    exact ⟨.arrow ihd.domain ihc.type, fun h => by simp [TyTerm.isArrow] at h,
      fun h => by simp [TyTerm.isAtom] at h⟩

end Phrased

end Grammar

/-! ## The texts of a printed type -/

/-- A way to split texts into items, where each word of a type is an item, brackets are items, and
blanks do no more than keep words apart. -/
structure Token.Splitting {τ : Type} (Splits : List Char → List τ → Prop) (item : Token → τ) :
    Prop where
  name {word : String} : IsName word → Splits word.toList [item (.name word)]
  var {word : String} : IsVar word → Splits word.toList [item (.var word)]
  arrow : Splits ['-', '>'] [item .arrow]
  blanks {cs ds : List Char} {ts : List τ} : Splits cs ts → (∀ d ∈ ds, isSpace d = true) →
    Splits (ds ++ cs) ts
  append {cs ds : List Char} {ts us : List τ} : Splits cs ts → Splits ds us →
    (∃ d ∈ ds.head?, isSpace d = true) → Splits (cs ++ ds) (ts ++ us)
  brackets {cs : List Char} {ts : List τ} : Splits cs ts →
    Splits ('(' :: cs ++ [')']) (item .lparen :: ts ++ [item .rparen])

theorem Token.Spells.splitting : Splitting Spells id where
  name := .name
  var := .var
  arrow := nil.arrow
  blanks := .blanks
  append h h' hblank := by
    refine h.append h' fun c hc => ?_
    obtain ⟨d, hd, hspace⟩ := hblank
    obtain rfl := Option.mem_unique hc hd
    exact isWordChar_of_isSpace hspace
  brackets := .brackets

namespace Token.Splitting

variable {τ : Type} {Splits : List Char → List τ → Prop} {item : Token → τ} {cs : List Char}

/-- A line end keeps two texts apart, whether it is taken or not. -/
theorem line (hS : Splitting Splits item) {ds blanks : List Char} {ts us : List τ}
    (hline : Doc.LaidOut .line blanks) (h : Splits cs ts) (h' : Splits ds us) :
    Splits (cs ++ (blanks ++ ds)) (ts ++ us) := by
  obtain ⟨c, rest, hcons, hblanks⟩ := hline.of_line
  exact hS.append h (hS.blanks h' hblanks) ⟨c, by simp [hcons], hblanks c (by simp [hcons])⟩

theorem spaced (hS : Splitting Splits item) {ds : List Char} {ts us : List τ} (h : Splits cs ts)
    (h' : Splits ds us) : Splits (cs ++ ([' '] ++ ds)) (ts ++ us) :=
  hS.line .space h h'

theorem parensIf (hS : Splitting Splits item) {d : Doc} {ts : List τ} {condition : Bool}
    (h : ∀ cs, d.LaidOut cs → Splits cs ts) (hcs : (d.parensIf condition).LaidOut cs) :
    Splits cs (enclosedIf (item .lparen) (item .rparen) condition ts) := by
  cases condition with
  | false => exact h cs hcs
  | true =>
    obtain ⟨ds, rfl, hds⟩ := hcs.of_parens
    exact hS.brackets (h ds hds)

theorem arguments (hS : Splitting Splits item) {arg : NamedTy} {args : List NamedTy}
    (h : ∀ t ∈ arg :: args, ∀ cs, t.toDoc.LaidOut cs → Splits cs (t.tokens.map item))
    (hcs : (Doc.spaced (TyTerm.argDocs (arg :: args))).LaidOut cs) :
    Splits cs ((TyTerm.argTokens (arg :: args)).map item) := by
  induction args generalizing arg cs with
  | nil =>
    rw [TyTerm.argTokens, TyTerm.argTokens, List.append_nil, map_enclosedIf]
    exact hS.parensIf (h arg List.mem_cons_self) hcs
  | cons next rest ih =>
    obtain ⟨_, es, rfl, hcs, hrest⟩ := hcs.of_cat
    obtain ⟨ds, _, rfl, harg, hspace⟩ := hcs.of_cat
    have hfirst := hS.parensIf (h arg List.mem_cons_self) harg
    have hlater := ih (fun t ht => h t (List.mem_cons_of_mem arg ht)) hrest
    rw [TyTerm.argTokens, List.map_append, map_enclosedIf, hspace.of_text, List.append_assoc]
    exact hS.spaced hfirst hlater

/-- By induction over the type: each layout of its document splits into its tokens. -/
theorem toDoc (hS : Splitting Splits item) {t : NamedTy}
    (hnames : ∀ name ∈ t.literalNames, IsName name) (hvars : ∀ v ∈ t.leaves, IsVar v)
    (cs : List Char) (hcs : t.toDoc.LaidOut cs) : Splits cs (t.tokens.map item) := by
  induction t using TyTerm.induct generalizing cs with
  | var v =>
    rw [TyTerm.toDoc] at hcs
    rw [hcs.of_text]
    exact hS.var (hvars v (by simp [TyTerm.leaves]))
  | lit name args ih =>
    have hname : Splits name.toList [item (.name name)] :=
      hS.name (hnames name (by rw [TyTerm.literalNames_lit]; exact List.mem_cons_self))
    cases args with
    | nil =>
      rw [TyTerm.toDoc] at hcs
      rw [hcs.of_text]
      exact hname
    | cons arg args =>
      rw [TyTerm.toDoc] at hcs
      obtain ⟨_, es, rfl, hcs, hargs⟩ := hcs.of_cat
      obtain ⟨_, _, rfl, hhead, hspace⟩ := hcs.of_cat
      have hsub : ∀ t ∈ arg :: args, ∀ cs, t.toDoc.LaidOut cs → Splits cs (t.tokens.map item) := by
        intro t ht
        refine ih t ht (fun n hn => hnames n ?_) (fun v hv => hvars v ?_)
        · rw [TyTerm.literalNames_lit]
          exact List.mem_cons_of_mem name (List.mem_flatMap.mpr ⟨t, ht, hn⟩)
        · rw [TyTerm.leaves_lit]
          exact List.mem_flatMap.mpr ⟨t, ht, hv⟩
      rw [hhead.of_text, hspace.of_text, List.append_assoc]
      exact hS.spaced hname (hS.arguments hsub hargs)
  | fn domain codomain ihd ihc =>
    rw [TyTerm.toDoc] at hcs
    obtain ⟨_, es, rfl, hcs, hcodomain⟩ := hcs.of_group.of_cat
    obtain ⟨_, blanks, rfl, hcs, hline⟩ := hcs.of_cat
    obtain ⟨ds, _, rfl, hdomain, harrow⟩ := hcs.of_cat
    have hnames' := fun n (hn : n ∈ domain.literalNames ++ codomain.literalNames) => hnames n hn
    have hvars' := fun v (hv : v ∈ domain.leaves ++ codomain.leaves) => hvars v hv
    have hd := hS.parensIf
      (ihd (fun n hn => hnames' n (List.mem_append_left _ hn))
        fun v hv => hvars' v (List.mem_append_left _ hv)) hdomain
    have hc := ihc (fun n hn => hnames' n (List.mem_append_right _ hn))
      (fun v hv => hvars' v (List.mem_append_right _ hv)) es hcodomain
    have hall := hS.spaced hd (hS.line hline hS.arrow hc)
    rw [harrow.of_text, TyTerm.tokens, List.map_append, List.map_cons, map_enclosedIf]
    simpa using hall

end Token.Splitting

/-! ## Names of variables -/

theorem letter_isLower : ∀ n < 26, (Char.ofNat (97 + n)).isLower = true := by
  decide

theorem nthName_isVar (n : Nat) : Token.IsVar (nthName n) := by
  have hletter := toNat_letter _ (Nat.mod_lt n (by decide : 26 > 0))
  have hlower := letter_isLower _ (Nat.mod_lt n (by decide : 26 > 0))
  have hascii : (Char.ofNat (97 + n % 26)).toNat < 128 := by omega
  refine ⟨_, _, toList_nthName n, ?_, ?_⟩
  · rw [Text.isLowercase_ascii hascii, hlower]
  · intro c hc
    rcases List.mem_cons.mp hc with rfl | hc
    · rw [Token.isWordChar_ascii hascii, Text.isAlphanum_eq, hlower]
      simp
    · split at hc
      · exact absurd hc List.not_mem_nil
      · rw [Nat.toString_eq_ofList_toDigits, String.toList_ofList] at hc
        have hdigit := Nat.isDigit_of_mem_toDigits (by decide) (by decide) hc
        have hrange : c.toNat ≤ 57 := by
          simp only [Text.isDigit_eq, Bool.and_eq_true, decide_eq_true_eq] at hdigit
          exact hdigit.2
        rw [Token.isWordChar_ascii (by omega), Text.isAlphanum_eq, hdigit]
        simp

/-! ## Names of literals -/

theorem Token.Lexed.isName {cs : List Char} {ts : List Token} (h : Lexed cs ts) {word : String}
    (hword : .name word ∈ ts) : IsName word := by
  induction h with
  | nil => exact absurd hword List.not_mem_nil
  | blank _ _ ih => exact ih hword
  | arrow _ ih => exact ih (by simpa using hword)
  | lparen _ ih => exact ih (by simpa using hword)
  | rparen _ ih => exact ih (by simpa using hword)
  | @name c rest cs ts hchars _ hc _ ih =>
    rcases List.mem_cons.mp hword with heq | hword
    · obtain rfl := Token.name.inj heq
      exact ⟨c, rest, String.toList_ofList, hc, hchars⟩
    · exact ih hword
  | var _ _ _ _ ih => exact ih (by simpa using hword)

namespace Grammar

/-- The literal names in what a phrase denotes. -/
def Nonterminal.literalNames : (X : Nonterminal) → X.Meaning → List String
  | .type, t => TyTerm.literalNames t
  | .applied, t => TyTerm.literalNames t
  | .atoms, args => args.flatMap TyTerm.literalNames
  | .atom, t => TyTerm.literalNames t

theorem Derives.name_mem {X : Nonterminal} {ts : List Token} {m : X.Meaning} (h : Derives X ts m)
    {name : String} (hname : name ∈ X.literalNames m) : .name name ∈ ts := by
  induction h with
  | applied _ ih => exact ih hname
  | arrow _ _ ihd ihc =>
    rcases List.mem_append.mp hname with hname | hname
    · exact List.mem_append_left _ (ihd hname)
    · exact List.mem_append_right _ (List.mem_cons_of_mem _ (ihc hname))
  | @application head ts args _ ih =>
    rw [Nonterminal.literalNames, TyTerm.literalNames_lit] at hname
    rcases List.mem_cons.mp hname with rfl | hname
    · exact List.mem_cons_self
    · exact List.mem_cons_of_mem _ (ih hname)
  | atom _ ih => exact ih hname
  | none => exact absurd hname List.not_mem_nil
  | @more ts us args t _ _ ih iht =>
    rw [Nonterminal.literalNames, List.flatMap_append, List.flatMap_singleton] at hname
    rcases List.mem_append.mp hname with hname | hname
    · exact List.mem_append_left _ (ih hname)
    · exact List.mem_append_right _ (iht hname)
  | var => exact absurd hname List.not_mem_nil
  | name => simpa [Nonterminal.literalNames, TyTerm.literalNames_lit] using hname
  | brackets _ ih => exact List.mem_append_left _ (List.mem_cons_of_mem _ (ih hname))

end Grammar

/-! ## Reading what was printed -/

namespace TyTerm

theorem textAt_eq (width : Nat) (t : Ty) : t.textAt width = t.lettered.toDoc.render width := by
  rw [textAt, named_none]

/-- Every layout of a type is read as the type with numbers for its names. -/
theorem readType_of_laidOut {t : Ty} (hnames : ∀ name ∈ t.literalNames, Token.IsName name)
    {text : String} (htext : t.lettered.toDoc.LaidOut text.toList) (context : String)
    (s : Supply) : Loading.readType context text s = .ok (t.lettered.instantiate s) := by
  have hletters : ∀ v ∈ t.lettered.leaves, Token.IsVar v := by
    intro v hv
    rw [lettered, leaves_map] at hv
    obtain ⟨w, -, rfl⟩ := List.mem_map.mp hv
    exact nthName_isVar _
  have hnames : ∀ name ∈ t.lettered.literalNames, Token.IsName name := by
    rwa [lettered, literalNames_map]
  have hspells := Token.Spells.splitting.toDoc hnames hletters _ htext
  rw [List.map_id] at hspells
  exact Loading.readType_eq_ok_iff.mpr
    ⟨_, ⟨_, hspells.lexed, (Grammar.Phrased.tokens t.lettered).type⟩, rfl⟩

/-- A type whose literals have names is read back from its text, whatever the width, as a type that
is equal to it up to renaming and is printed as the same text.  It is read so from every text that
its document can be laid out as.  All literals of a type that was read have names. -/
theorem readType_textAt (context : String) (s : Supply) :
    (∀ t : Ty, (∀ name ∈ t.literalNames, Token.IsName name) →
      ∃ t' s', t.alphaEq t' = true ∧
        (∀ width, Loading.readType context (t.textAt width) s = .ok (t', s') ∧
          t'.textAt width = t.textAt width) ∧
        ∀ text : String, (t.named .none).1.toDoc.LaidOut text.toList →
          Loading.readType context text s = .ok (t', s')) ∧
    ∀ source t s', Loading.readType context source s = .ok (t, s') →
      ∀ name ∈ t.literalNames, Token.IsName name := by
  constructor
  · intro t hnames
    refine ⟨(t.lettered.instantiate s).1, (t.lettered.instantiate s).2,
      alphaEq_iff.mpr (t.renamesTo_instantiate_lettered s), fun width => ⟨?_, ?_⟩,
      fun text htext => ?_⟩
    · rw [textAt_eq]
      exact readType_of_laidOut hnames (Doc.render_laidOut width _) context s
    · rw [textAt_eq, textAt_eq, lettered_instantiate, lettered_lettered]
    · rw [named_none] at htext
      exact readType_of_laidOut hnames htext context s
  · intro source t s' hread name hname
    obtain ⟨u, ⟨ts, hts, hu⟩, hinst⟩ := Loading.readType_eq_ok_iff.mp hread
    obtain rfl : (u.instantiate s).1 = t := congrArg Prod.fst hinst
    rw [instantiate, literalNames_map] at hname
    exact hts.isName (hu.name_mem (X := .type) hname)

theorem readType_textAt_narrow :
    textAt 4 (.fn (.fn (.var 7) (.lit "_B2" [])) (.lit "List" [.lit "List" [.var 7]])) =
        "(a ->\n_B2) ->\nList (List a)" ∧
      ∃ t' s', Loading.readType "f" "(a ->\n_B2) ->\nList (List a)" ⟨9⟩ = .ok (t', s') ∧
        alphaEq (.fn (.fn (.var 7) (.lit "_B2" [])) (.lit "List" [.lit "List" [.var 7]])) t' =
          true ∧
        t'.textAt 4 = "(a ->\n_B2) ->\nList (List a)" := by
  have htext : textAt 4 (.fn (.fn (.var 7) (.lit "_B2" [])) (.lit "List" [.lit "List" [.var 7]])) =
      "(a ->\n_B2) ->\nList (List a)" := by decide +kernel
  have hname : Token.IsName "_B2" :=
    ⟨'_', ['B', '2'], by simp, .inl rfl, by simp [Token.isWordChar_ascii]⟩
  have hname' : Token.IsName "List" :=
    ⟨'L', ['i', 's', 't'], by simp, .inr (by simp [Text.isUppercase_ascii]),
      by simp [Token.isWordChar_ascii]⟩
  obtain ⟨t', s', halpha, hread, -⟩ := (readType_textAt "f" ⟨9⟩).1
    (.fn (.fn (.var 7) (.lit "_B2" [])) (.lit "List" [.lit "List" [.var 7]]))
    (by simp [literalNames, literalNamesAll, hname, hname'])
  have hread := hread 4
  rw [htext] at hread
  exact ⟨htext, t', s', hread.1, halpha, hread.2⟩

end TyTerm
end BlockGraph
