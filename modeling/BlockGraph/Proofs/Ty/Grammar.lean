import BlockGraph.Loading
import BlockGraph.Proofs.Ty.Lexical
import BlockGraph.Proofs.Unification.Families

/-!
# The grammar of types

    type     := applied ("->" type)?
    applied  := NAME atom* | atom
    atom     := VAR | NAME | "(" type ")"

`Derives` is this grammar as a relation between a phrase and the term that it denotes.  A lone name
has two derivations as an operand, since it is an atom and also a name without arguments.  They
denote the same term, and so a phrase denotes at most one.

The reader accepts a text exactly if the text splits into tokens that derive a type.  That a derived
phrase is read is an induction over its derivation, with one statement for each nonterminal about
the states that a phrase leads through.  That what is read is derived is an invariant of the
reader's state: each level has read some operands with arrows between them, and an open bracket
stands between two levels.
-/

namespace BlockGraph

variable {source : String}

namespace Grammar

/-- The kinds of phrases. -/
inductive Nonterminal where
  | type
  | applied
  | atoms
  | atom

abbrev Nonterminal.Meaning : Nonterminal → Type
  | atoms => List NamedTy
  | _ => NamedTy

/-- The phrases of each nonterminal, with what they denote. -/
inductive Derives : (X : Nonterminal) → List Token → X.Meaning → Prop
  | applied {ts : List Token} {t : NamedTy} (h : Derives .applied ts t) : Derives .type ts t
  | arrow {ts us : List Token} {domain codomain : NamedTy} (hd : Derives .applied ts domain)
      (hc : Derives .type us codomain) : Derives .type (ts ++ .arrow :: us) (.fn domain codomain)
  | application {name : String} {ts : List Token} {args : List NamedTy}
      (h : Derives .atoms ts args) : Derives .applied (.name name :: ts) (.lit name args)
  | atom {ts : List Token} {t : NamedTy} (h : Derives .atom ts t) : Derives .applied ts t
  | none : Derives .atoms [] []
  | more {ts us : List Token} {args : List NamedTy} {t : NamedTy} (h : Derives .atoms ts args)
      (ht : Derives .atom us t) : Derives .atoms (ts ++ us) (args ++ [t])
  | var {name : String} : Derives .atom [.var name] (.var name)
  | name {name : String} : Derives .atom [.name name] (.lit name [])
  | brackets {ts : List Token} {t : NamedTy} (h : Derives .type ts t) :
      Derives .atom (.lparen :: ts ++ [.rparen]) t

end Grammar

namespace Reader

variable {s s' : State} {t : NamedTy} {ts : List Token}

open Grammar

/-! ## Derived phrases are read -/

/-- The state after all tokens, if each of them can follow. -/
def State.feed (s : State) (ts : List Token) : Option State :=
  ts.foldlM State.step s

@[simp]
theorem State.feed_nil (s : State) : s.feed [] = some s := rfl

@[simp]
theorem State.feed_cons (s : State) (t : Token) (ts : List Token) :
    s.feed (t :: ts) = (s.step t).bind fun s' => s'.feed ts := rfl

@[simp]
theorem State.feed_append (s : State) (ts us : List Token) :
    s.feed (ts ++ us) = (s.feed ts).bind fun s' => s'.feed us :=
  List.foldlM_append

/-- A run ends well exactly if its tokens can follow each other, wherever they stand. -/
theorem State.run_eq_ok_iff {lexemes : List Lexeme} :
    s.run lexemes = .ok s' ↔ s.feed (lexemes.map Lexeme.token) = some s' := by
  induction lexemes generalizing s with
  | nil => simp [State.run]
  | cons lexeme rest ih =>
    cases h : s.step lexeme.token <;> simp [State.run, h, ih]

/-- Where an operand is due, reading the phrase makes it one that stands for `t`. -/
def Operand.Takes (ts : List Token) (t : NamedTy) : Prop :=
  ∀ domains outer, ∃ operand : Operand,
    State.feed ⟨⟨domains, .vacant⟩, outer⟩ ts = some ⟨⟨domains, operand⟩, outer⟩ ∧
      operand.value? = some t

/-- What reading a phrase does to the state. -/
def Accepts : (X : Nonterminal) → List Token → X.Meaning → Prop
  | .type, ts, t => ∀ domains outer, ∃ level : Level,
      State.feed ⟨⟨domains, .vacant⟩, outer⟩ ts = some ⟨level, outer⟩ ∧
        level.value? = some (.curried domains t)
  | .applied, ts, t => Operand.Takes ts t
  | .atoms, ts, args => ∀ domains outer head before,
      State.feed ⟨⟨domains, .applied head before⟩, outer⟩ ts =
        some ⟨⟨domains, .applied head (before ++ args)⟩, outer⟩
  | .atom, ts, t => Operand.Takes ts t ∧ ∀ domains outer head before,
      State.feed ⟨⟨domains, .applied head before⟩, outer⟩ ts =
        some ⟨⟨domains, .applied head (before ++ [t])⟩, outer⟩

/-- What stands in brackets is read at a level of its own and then taken as an atom. -/
theorem State.feed_brackets (h : Accepts .type ts t) {level : Level} {operand : Operand}
    (htakes : level.operand.takesAtom = true) (hadd : level.operand.addAtom t = some operand)
    (outer : List Level) :
    State.feed ⟨level, outer⟩ (.lparen :: ts ++ [.rparen]) =
      some ⟨{ level with operand }, outer⟩ := by
  obtain ⟨inner, hfeed, hvalue⟩ := h [] (level :: outer)
  have hvalue : inner.value? = some t := hvalue
  simp [State.step, htakes, hfeed, hvalue, hadd]

/-- By induction over the derivation, each rule a step of the reader between those of its parts. -/
theorem accepts_of_derives {X : Nonterminal} {t : X.Meaning} (h : Derives X ts t) :
    Accepts X ts t := by
  induction h with
  | applied _ ih =>
    intro domains outer
    obtain ⟨operand, hfeed, hvalue⟩ := ih domains outer
    exact ⟨⟨domains, operand⟩, hfeed, by simp [Level.value?, hvalue]⟩
  | @arrow ts us domain codomain _ _ ihd ihc =>
    intro domains outer
    obtain ⟨operand, hfeed, hvalue⟩ := ihd domains outer
    obtain ⟨level, hfeed', hvalue'⟩ := ihc (domains ++ [domain]) outer
    refine ⟨level, ?_, ?_⟩
    · simp [hfeed, State.step, hvalue, hfeed']
    · simpa [TyTerm.curried] using hvalue'
  | @application name ts args _ ih =>
    intro domains outer
    refine ⟨.applied name args, ?_, rfl⟩
    simpa [State.step, Operand.addName] using ih domains outer name []
  | atom _ ih => exact ih.1
  | none =>
    intro domains outer head before
    simp
  | more _ _ ih iht =>
    intro domains outer head before
    rw [State.feed_append, ih domains outer head before, Option.bind_some, iht.2,
      List.append_assoc]
  | @var name =>
    refine ⟨fun domains outer => ⟨.whole (.var name), rfl, rfl⟩, ?_⟩
    intro domains outer head before
    rfl
  | @name name =>
    refine ⟨fun domains outer => ⟨.applied name [], rfl, rfl⟩, ?_⟩
    intro domains outer head before
    rfl
  | @brackets ts t _ ih =>
    refine ⟨fun domains outer => ⟨.whole t, State.feed_brackets ih rfl rfl outer, rfl⟩, ?_⟩
    intro domains outer head before
    exact State.feed_brackets ih rfl rfl outer

theorem derives_unique {t' : NamedTy} (h : Derives .type ts t) (h' : Derives .type ts t') :
    t = t' := by
  obtain ⟨level, hfeed, hvalue⟩ := accepts_of_derives h [] []
  obtain ⟨level', hfeed', hvalue'⟩ := accepts_of_derives h' [] []
  rw [hfeed, Option.some.injEq, State.mk.injEq] at hfeed'
  rw [← hfeed'.1, hvalue] at hvalue'
  exact Option.some.inj hvalue'

/-! ## What is read is derived -/

/-- The tokens that an operand has been read from. -/
inductive Operand.ReadFrom : List Token → Operand → Prop
  | vacant : ReadFrom [] .vacant
  | applied {name : String} {ts : List Token} {args : List NamedTy} (h : Derives .atoms ts args) :
      ReadFrom (.name name :: ts) (.applied name args)
  | whole {ts : List Token} {t : NamedTy} (h : Derives .atom ts t) : ReadFrom ts (.whole t)

namespace Operand.ReadFrom

variable {ts us : List Token} {operand operand' : Operand} {t : NamedTy}

theorem addAtom (h : ReadFrom ts operand) (ht : Derives .atom us t)
    (hadd : operand.addAtom t = some operand') : ReadFrom (ts ++ us) operand' := by
  cases h with
  | vacant =>
    obtain rfl := Option.some.inj hadd
    exact .whole ht
  | applied hargs =>
    obtain rfl := Option.some.inj hadd
    exact .applied (.more hargs ht)
  | whole => cases hadd

theorem addName {name : String} (h : ReadFrom ts operand)
    (hadd : operand.addName name = some operand') : ReadFrom (ts ++ [.name name]) operand' := by
  cases h with
  | vacant =>
    obtain rfl := Option.some.inj hadd
    exact .applied .none
  | applied hargs =>
    obtain rfl := Option.some.inj hadd
    exact .applied (.more hargs .name)
  | whole => cases hadd

theorem derives (h : ReadFrom ts operand) (hvalue : operand.value? = some t) :
    Derives .applied ts t := by
  cases h with
  | vacant => cases hvalue
  | applied hargs =>
    obtain rfl := Option.some.inj hvalue
    exact .application hargs
  | whole ht =>
    obtain rfl := Option.some.inj hvalue
    exact .atom ht

end Operand.ReadFrom

/-- The tokens that the domains of a level have been read from, each with the arrow after it. -/
inductive DomainsReadFrom : List Token → List NamedTy → Prop
  | none : DomainsReadFrom [] []
  | more {ts us : List Token} {domains : List NamedTy} {t : NamedTy}
      (h : DomainsReadFrom ts domains) (ht : Derives .applied us t) :
      DomainsReadFrom (ts ++ us ++ [.arrow]) (domains ++ [t])

theorem DomainsReadFrom.derives {us : List Token} {domains : List NamedTy}
    (h : DomainsReadFrom ts domains) (ht : Derives .type us t) :
    Derives .type (ts ++ us) (.curried domains t) := by
  induction h generalizing us t with
  | none => exact ht
  | more _ hd ih => simpa [TyTerm.curried] using ih (.arrow hd ht)

/-- The tokens that a level has been read from. -/
inductive Level.ReadFrom : List Token → Level → Prop
  | mk {ts us : List Token} {domains : List NamedTy} {operand : Operand}
      (hd : DomainsReadFrom ts domains) (ho : operand.ReadFrom us) :
      ReadFrom (ts ++ us) ⟨domains, operand⟩

theorem Level.ReadFrom.derives {level : Level} (h : level.ReadFrom ts)
    (hvalue : level.value? = some t) : Derives .type ts t := by
  obtain @⟨ts, us, domains, operand, hd, ho⟩ := h
  obtain ⟨u, hu, rfl⟩ := Option.map_eq_some_iff.mp hvalue
  exact hd.derives (.applied (ho.derives hu))

/-- The tokens that the levels outside have been read from, each with the bracket after it. -/
inductive OuterReadFrom : List Token → List Level → Prop
  | none : OuterReadFrom [] []
  | more {ts us : List Token} {level : Level} {outer : List Level} (h : OuterReadFrom ts outer)
      (hl : level.ReadFrom us) : OuterReadFrom (ts ++ us ++ [.lparen]) (level :: outer)

/-- The tokens that a state has been reached by. -/
inductive State.ReadFrom : List Token → State → Prop
  | mk {ts us : List Token} {level : Level} {outer : List Level} (ho : OuterReadFrom ts outer)
      (hl : level.ReadFrom us) : ReadFrom (ts ++ us) ⟨level, outer⟩

theorem State.ReadFrom.step {t : Token} (h : s.ReadFrom ts) (hstep : s.step t = some s') :
    s'.ReadFrom (ts ++ [t]) := by
  obtain @⟨ts, us, level, outer, houter, hlevel⟩ := h
  obtain @⟨us, vs, domains, operand, hd, ho⟩ := hlevel
  cases t with
  | name word =>
    obtain ⟨operand', hadd, rfl⟩ := Option.map_eq_some_iff.mp hstep
    simpa using .mk houter (.mk hd (ho.addName hadd))
  | var word =>
    obtain ⟨operand', hadd, rfl⟩ := Option.map_eq_some_iff.mp hstep
    simpa using .mk houter (.mk hd (ho.addAtom .var hadd))
  | arrow =>
    obtain ⟨u, hu, rfl⟩ := Option.map_eq_some_iff.mp hstep
    have hread := State.ReadFrom.mk houter (.mk (.more hd (ho.derives hu)) .vacant)
    simpa using hread
  | lparen =>
    simp only [State.step] at hstep
    split at hstep
    · obtain rfl := Option.some.inj hstep
      have hread := State.ReadFrom.mk (.more houter (.mk hd ho)) (.mk .none .vacant)
      simpa using hread
    · cases hstep
  | rparen =>
    simp only [State.step] at hstep
    split at hstep
    next u level outer hvalue =>
      obtain ⟨operand', hadd, rfl⟩ := Option.map_eq_some_iff.mp hstep
      -- The level that ends is an atom of the one outside.
      obtain _ | ⟨houter, ⟨hd', ho'⟩⟩ := houter
      have hu := Level.ReadFrom.derives (.mk hd ho) hvalue
      have hread := State.ReadFrom.mk houter (.mk hd' (ho'.addAtom (.brackets hu) hadd))
      simpa using hread
    · cases hstep
  | junk => cases hstep

theorem State.ReadFrom.feed {us : List Token} (h : s.ReadFrom ts) (hfeed : s.feed us = some s') :
    s'.ReadFrom (ts ++ us) := by
  induction us generalizing s ts with
  | nil =>
    obtain rfl := Option.some.inj hfeed
    simpa using h
  | cons u us ih =>
    obtain ⟨s₁, hstep, hfeed⟩ := Option.bind_eq_some_iff.mp hfeed
    simpa using ih (h.step hstep) hfeed

theorem derives_of_result (hfeed : State.feed {} ts = some s) (hresult : s.result? = some t) :
    Derives .type ts t := by
  have hstart : State.ReadFrom [] {} := .mk .none (.mk .none .vacant)
  have hread := hstart.feed hfeed
  rw [List.nil_append] at hread
  obtain @⟨us, vs, level, outer, houter, hlevel⟩ := hread
  cases houter with
  | none => exact hlevel.derives hresult
  | more => cases hresult

theorem junk_not_mem_of_feed (h : s.feed ts = some s') : .junk ∉ ts := by
  induction ts generalizing s with
  | nil => exact List.not_mem_nil
  | cons t ts ih =>
    obtain ⟨s₁, hstep, hfeed⟩ := Option.bind_eq_some_iff.mp h
    rw [List.mem_cons, not_or]
    refine ⟨?_, ih hfeed⟩
    rintro rfl
    cases hstep

end Reader

/-- A text and the type that it is written for. -/
def NamedTy.Written (source : String) (t : NamedTy) : Prop :=
  ∃ ts, Token.Lexed source.toList ts ∧ Grammar.Derives .type ts t

theorem NamedTy.Written.unique {t t' : NamedTy} (h : Written source t) (h' : Written source t') :
    t = t' := by
  obtain ⟨ts, hts, ht⟩ := h
  obtain ⟨ts', hts', ht'⟩ := h'
  obtain rfl := hts.unique hts'
  exact Reader.derives_unique ht ht'

theorem NamedTy.read_eq_ok_iff {t : NamedTy} : NamedTy.read source = .ok t ↔ Written source t := by
  constructor
  · intro h
    rw [NamedTy.read] at h
    split at h
    · cases h
    next s hrun =>
      rw [Reader.State.run_eq_ok_iff] at hrun
      refine ⟨_, Token.lexed_scan (Reader.junk_not_mem_of_feed hrun), ?_⟩
      split at h
      next u hresult =>
        obtain rfl := Except.ok.inj h
        exact Reader.derives_of_result hrun hresult
      · cases h
  · rintro ⟨ts, hts, ht⟩
    obtain ⟨level, hfeed, hvalue⟩ := Reader.accepts_of_derives ht [] []
    rw [← hts.scan_eq 0] at hfeed
    have hrun : Reader.State.run {} (Token.scan 0 source.toList) = .ok ⟨level, []⟩ :=
      Reader.State.run_eq_ok_iff.mpr hfeed
    have hresult : Reader.State.result? ⟨level, []⟩ = some t := hvalue
    simp [NamedTy.read, hrun, hresult]

/-! ## Reading with fresh variables -/

theorem TyTerm.instantiate_spec {ν : Type} [DecidableEq ν] (t : TyTerm ν) (s : Supply) :
    ∃ number : ν → TyVar, t.instantiate s = (t.map number, s.skip t.vars.length) ∧
      (∀ v ∈ t.leaves, s.next ≤ number v ∧ number v < s.next + t.vars.length) ∧
      ∀ v ∈ t.leaves, ∀ w ∈ t.leaves, number v = number w → v = w := by
  refine ⟨s.numbered t.vars, rfl, fun v hv => s.numbered_range (TyTerm.mem_vars.mpr hv), ?_⟩
  intro v hv w hw
  exact s.numbered_injective v (TyTerm.mem_vars.mpr hv) w (TyTerm.mem_vars.mpr hw)

theorem Loading.readType_eq_ok_iff {context : String} {s : Supply} {result : Ty × Supply} :
    Loading.readType context source s = .ok result ↔
      ∃ t, NamedTy.Written source t ∧ t.instantiate s = result := by
  rw [Loading.readType]
  cases h : NamedTy.read source with
  | ok t =>
    have ht := NamedTy.read_eq_ok_iff.mp h
    constructor
    · intro hok
      exact ⟨t, ht, Except.ok.inj hok⟩
    · rintro ⟨t', ht', rfl⟩
      rw [ht.unique ht']
  | error e =>
    constructor
    · intro hok
      cases hok
    · rintro ⟨t, ht, -⟩
      rw [NamedTy.read_eq_ok_iff.mpr ht] at h
      cases h

end BlockGraph
