import BlockGraph.Proofs.Ty.Names
import BlockGraph.Ty.Tree

/-!
# Stored types

Storing a type and taking it out again are inverse, as far as stored forms tell types
apart.  A type of any form is stored faithfully unless a literal of its own is called as the
arrow is (`toNamed_ofNamed`).  A tree that denotes a type is the stored form of that type
(`ofNamed_of_toNamed`), and it denotes one just if its arrows have two arguments.

The names of variables are chosen anew whenever a type is stored: a tree comes back with
its variables named by order of first appearance.
-/

namespace BlockGraph
namespace TyTree

variable {t : TyTree}

/-! ## Names and literals of a tree -/

/-- Structural induction, with one hypothesis for all arguments of a literal. -/
@[elab_as_elim, induction_eliminator]
theorem induct {motive : TyTree → Prop} (var : ∀ name, motive (.var name))
    (lit : ∀ name args, (∀ t ∈ args, motive t) → motive (.lit name args)) (t : TyTree) :
    motive t := by
  refine @TyTree.rec motive (fun ts => ∀ t ∈ ts, motive t) var lit ?_ ?_ t
  · intro t h
    exact absurd h List.not_mem_nil
  · intro u rest hu hrest t ht
    rcases List.mem_cons.mp ht with rfl | ht
    · exact hu
    · exact hrest t ht

mutual

def leaves : TyTree → List String
  | var name => [name]
  | lit _ args => leavesAll args

def leavesAll : List TyTree → List String
  | [] => []
  | t :: rest => leaves t ++ leavesAll rest

end

mutual

/-- The literals of a tree, each with the number of its arguments. -/
def literals : TyTree → List (String × Nat)
  | var _ => []
  | lit name args => (name, args.length) :: literalsAll args

def literalsAll : List TyTree → List (String × Nat)
  | [] => []
  | t :: rest => literals t ++ literalsAll rest

end

mutual

def map (f : String → String) : TyTree → TyTree
  | var name => var (f name)
  | lit name args => lit name (mapAll f args)

def mapAll (f : String → String) : List TyTree → List TyTree
  | [] => []
  | t :: rest => map f t :: mapAll f rest

end

def vars (t : TyTree) : List String :=
  firsts t.leaves

/-- The name that a variable gets by order of first appearance. -/
def letter (t : TyTree) (name : String) : String :=
  nthName (t.vars.idxOf name)

@[simp]
theorem leaves_lit (name : String) (args : List TyTree) :
    (lit name args).leaves = args.flatMap leaves := by
  rw [leaves]
  induction args with
  | nil => rfl
  | cons t rest ih => rw [leavesAll, List.flatMap_cons, ih]

@[simp]
theorem literals_lit (name : String) (args : List TyTree) :
    (lit name args).literals = (name, args.length) :: args.flatMap literals := by
  rw [literals]
  congr 1
  induction args with
  | nil => rfl
  | cons t rest ih => rw [literalsAll, List.flatMap_cons, ih]

@[simp]
theorem map_lit (f : String → String) (name : String) (args : List TyTree) :
    (lit name args).map f = lit name (args.map (map f)) := by
  rw [map]
  congr 1
  induction args with
  | nil => rfl
  | cons t rest ih => rw [mapAll, List.map_cons, ih]

@[simp]
theorem ofNamed_lit (name : String) (args : List NamedTy) :
    ofNamed (.lit name args) = lit name (args.map ofNamed) := by
  rw [ofNamed]
  congr 1
  induction args with
  | nil => rfl
  | cons t rest ih => rw [ofNamedAll, List.map_cons, ih]

theorem map_eq_self_iff {f : String → String} : t.map f = t ↔ ∀ name ∈ t.leaves, f name = name := by
  induction t with
  | var name => simp [map, leaves]
  | lit name args ih =>
    have hargs : args.map (map f) = args ↔ ∀ t ∈ args, t.map f = t := by
      simpa using List.map_inj_left (l := args) (f := map f) (g := id)
    simp only [map_lit, lit.injEq, true_and, leaves_lit, List.mem_flatMap, hargs]
    constructor
    · rintro h v ⟨t, ht, hv⟩
      exact (ih t ht).mp (h t ht) v hv
    · intro h t ht
      exact (ih t ht).mpr fun v hv => h v ⟨t, ht, hv⟩

theorem letter_injective (t : TyTree) :
    ∀ v ∈ t.leaves, ∀ w ∈ t.leaves, t.letter v = t.letter w → v = w := by
  intro v hv w _ h
  exact (List.idxOf_inj (mem_firsts.mpr hv)).mp (nthName_injective h)

/-- The names stay just if they are already those by order of first appearance. -/
theorem map_letter_eq_self_iff :
    t.map t.letter = t ↔ t.vars = (List.range t.vars.length).map nthName := by
  rw [map_eq_self_iff]
  constructor
  · intro h
    refine List.ext_getElem (by simp) fun k hk _ => ?_
    have hself := h t.vars[k] (mem_firsts.mp (List.getElem_mem hk))
    have hnodup : t.vars.Nodup := firsts_nodup t.leaves
    rw [letter, hnodup.idxOf_getElem k hk] at hself
    rw [List.getElem_map, List.getElem_range, hself]
  · intro h name hname
    have hlt : t.vars.idxOf name < t.vars.length :=
      List.idxOf_lt_length_of_mem (mem_firsts.mpr hname)
    have hget := congrArg (fun l => l[t.vars.idxOf name]?) h
    simp only [List.getElem?_map, List.getElem?_range hlt, Option.map_some,
      List.getElem?_eq_getElem hlt, List.getElem_idxOf hlt] at hget
    exact (Option.some.inj hget).symm

/-! ## Storing and taking out -/

theorem leaves_ofNamed (t : NamedTy) : (ofNamed t).leaves = t.leaves := by
  induction t using TyTerm.induct with
  | var name => rfl
  | lit name args ih =>
    rw [ofNamed_lit, leaves_lit, TyTerm.leaves_lit, List.flatMap_map, List.flatMap_def,
      List.flatMap_def, List.map_congr_left ih]
  | fn domain codomain ihd ihc =>
    rw [ofNamed, leaves_lit, TyTerm.leaves_fn, ← ihd, ← ihc]
    simp

theorem ofNamed_map (f : String → String) (t : NamedTy) :
    ofNamed (t.map f) = (ofNamed t).map f := by
  induction t using TyTerm.induct with
  | var name => rfl
  | lit name args ih =>
    rw [TyTerm.map_lit, ofNamed_lit, ofNamed_lit, map_lit, List.map_map, List.map_map]
    exact congrArg (lit name) (List.map_congr_left ih)
  | fn domain codomain ihd ihc =>
    rw [TyTerm.map_fn, ofNamed, ofNamed, ihd, ihc, map_lit]
    rfl

/-- What is built of arguments is stored as the literal with these arguments, arrow or not. -/
theorem ofNamed_build (name : String) (args : List NamedTy) :
    ofNamed (build name args) = lit name (args.map ofNamed) := by
  fun_cases build name args with
  | case1 domain codomain hname => rw [ofNamed, hname, List.map_cons, List.map_singleton]
  | case2 domain codomain hname => rw [ofNamed_lit]
  | case3 => rw [ofNamed_lit]

theorem build_of_ne {name : String} (h : name ≠ arrowName) (args : List NamedTy) :
    build name args = .lit name args := by
  fun_cases build name args with
  | case1 domain codomain hname => exact absurd hname h
  | case2 => rfl
  | case3 => rfl

theorem toNamedAll_eq_ok_iff {ts : List TyTree} {us : List NamedTy} :
    toNamedAll ts = .ok us ↔ List.Forall₂ (fun t u => toNamed t = .ok u) ts us := by
  induction ts generalizing us with
  | nil => simp [toNamedAll, eq_comm]
  | cons t rest ih =>
    rw [toNamedAll, List.forall₂_cons_left_iff]
    cases ht : toNamed t with
    | error e => simp
    | ok u =>
      cases hrest : toNamedAll rest with
      | error e => simp [← ih, hrest]
      | ok vs => simp [← ih, hrest, eq_comm (b := us)]

theorem exists_toNamedAll_iff {ts : List TyTree} :
    (∃ us, List.Forall₂ (fun t u => toNamed t = .ok u) ts us) ↔
      ∀ t ∈ ts, ∃ u, toNamed t = .ok u := by
  induction ts with
  | nil => simp
  | cons t rest ih =>
    rw [List.forall_mem_cons, ← ih]
    constructor
    · rintro ⟨us, hus⟩
      obtain _ | ⟨ht, hrest⟩ := hus
      exact ⟨⟨_, ht⟩, _, hrest⟩
    · rintro ⟨⟨u, ht⟩, us, hrest⟩
      exact ⟨u :: us, .cons ht hrest⟩

/-- A literal denotes what is built of what its arguments denote, unless it is an arrow with too
few or too many of them. -/
theorem toNamed_lit_eq_ok_iff {name : String} {args : List TyTree} {u : NamedTy} :
    toNamed (lit name args) = .ok u ↔
      (name = arrowName → args.length = 2) ∧
        ∃ us, List.Forall₂ (fun t u => toNamed t = .ok u) args us ∧ build name us = u := by
  rw [toNamed]
  by_cases h : name = arrowName ∧ args.length ≠ 2
  · rw [if_pos h]
    simp [h]
  · rw [if_neg h]
    have harrow : name = arrowName → args.length = 2 := by simpa using h
    cases hargs : toNamedAll args with
    | error e => simp [← toNamedAll_eq_ok_iff, hargs]
    | ok us =>
      simp only [← toNamedAll_eq_ok_iff, hargs, Except.ok.injEq, exists_eq_left']
      exact ⟨fun hu => ⟨harrow, hu⟩, fun hu => hu.2⟩

/-- A type without a literal that is called as the arrow comes back from its stored form. -/
theorem toNamed_ofNamed {t : NamedTy} (h : arrowName ∉ t.literalNames) :
    (ofNamed t).toNamed = .ok t := by
  induction t using TyTerm.induct with
  | var name => rfl
  | lit name args ih =>
    rw [TyTerm.literalNames_lit, List.mem_cons, not_or] at h
    have hname : name ≠ arrowName := fun he => h.1 he.symm
    have hargs : ∀ t ∈ args, (ofNamed t).toNamed = .ok t := fun t ht =>
      ih t ht fun hmem => h.2 (List.mem_flatMap.mpr ⟨t, ht, hmem⟩)
    rw [ofNamed_lit, toNamed_lit_eq_ok_iff]
    refine ⟨fun he => absurd he hname, args, ?_, build_of_ne hname args⟩
    rw [List.forall₂_map_left_iff, List.forall₂_same]
    exact hargs
  | fn domain codomain ihd ihc =>
    rw [TyTerm.literalNames, List.mem_append, not_or] at h
    rw [ofNamed, toNamed_lit_eq_ok_iff]
    exact ⟨fun _ => rfl, [domain, codomain], .cons (ihd h.1) (.cons (ihc h.2) .nil),
      by rw [build, if_pos rfl]⟩

/-- A tree is the stored form of the type that it denotes. -/
theorem ofNamed_of_toNamed {u : NamedTy} (h : t.toNamed = .ok u) : ofNamed u = t := by
  induction t generalizing u with
  | var name =>
    obtain rfl := Except.ok.inj h
    rfl
  | lit name args ih =>
    obtain ⟨-, us, hus, rfl⟩ := toNamed_lit_eq_ok_iff.mp h
    rw [ofNamed_build]
    congr 1
    clear h
    induction hus with
    | nil => rfl
    | @cons t u args us ht _ ihs =>
      rw [List.map_cons, ih t List.mem_cons_self ht,
        ihs fun t ht => ih t (List.mem_cons_of_mem _ ht)]

/-- A tree denotes a type just if all its arrows have two arguments. -/
theorem exists_toNamed_iff :
    (∃ u, t.toNamed = .ok u) ↔ ∀ l ∈ t.literals, l.1 = arrowName → l.2 = 2 := by
  induction t with
  | var name => simp [toNamed, literals]
  | lit name args ih =>
    rw [literals_lit, List.forall_mem_cons]
    simp only [toNamed_lit_eq_ok_iff]
    constructor
    · rintro ⟨u, harrow, us, hus, -⟩
      refine ⟨harrow, fun l hl => ?_⟩
      obtain ⟨t, ht, hl⟩ := List.mem_flatMap.mp hl
      exact (ih t ht).mp (exists_toNamedAll_iff.mp ⟨us, hus⟩ t ht) l hl
    · rintro ⟨harrow, hliterals⟩
      obtain ⟨us, hus⟩ := exists_toNamedAll_iff.mpr fun t ht => (ih t ht).mpr fun l hl =>
        hliterals l (List.mem_flatMap.mpr ⟨t, ht, hl⟩)
      exact ⟨_, harrow, us, hus, rfl⟩

/-! ## Numbered variables -/

theorem ofTy_eq (t : Ty) : ofTy t = ofNamed t.lettered := by
  rw [ofTy, TyTerm.named_none]

/-- The letters of a type are those of its stored form. -/
theorem ofNamed_lettered (t : NamedTy) :
    ofNamed t.lettered = (ofNamed t).map (ofNamed t).letter := by
  have hvars : (ofNamed t).vars = t.vars := by rw [vars, leaves_ofNamed, TyTerm.vars]
  have hletter : (ofNamed t).letter = t.letter := by
    funext v
    rw [letter, hvars, TyTerm.letter]
  rw [TyTerm.lettered, ofNamed_map, hletter]

theorem ofTy_instantiate (t : NamedTy) (s : Supply) :
    ofTy (t.instantiate s).1 = (ofNamed t).map (ofNamed t).letter := by
  rw [ofTy_eq, TyTerm.lettered_instantiate, ofNamed_lettered]

/-- Storing a type and taking it out gives the type back up to renaming, and storing that gives the
same tree, unless a literal of the type is called as the arrow.  A tree denotes a type just if its
arrows have two arguments, and storing that type gives the tree with its variables named one to one
by order of first appearance. -/
theorem stored_forms_round_trip :
    (∀ t : Ty, t.mentions arrowName = false →
      ∃ u, (ofTy t).toNamed = .ok u ∧ ∀ s, t.alphaEq (u.instantiate s).1 = true ∧
        ofTy (u.instantiate s).1 = ofTy t) ∧
    ∀ tree : TyTree,
      ((∃ u, tree.toNamed = .ok u) ↔ ∀ l ∈ tree.literals, l.1 = arrowName → l.2 = 2) ∧
      (∀ v ∈ tree.leaves, ∀ w ∈ tree.leaves, tree.letter v = tree.letter w → v = w) ∧
      ∀ u, tree.toNamed = .ok u → ∀ s,
        ofTy (u.instantiate s).1 = tree.map tree.letter ∧
        (ofTy (u.instantiate s).1 = tree ↔
          tree.vars = (List.range tree.vars.length).map nthName) := by
  refine ⟨fun t harrow => ⟨t.lettered, ?_, fun s => ⟨?_, ?_⟩⟩, fun tree =>
    ⟨exists_toNamed_iff, tree.letter_injective, fun u hu s => ?_⟩⟩
  · rw [ofTy_eq]
    refine toNamed_ofNamed ?_
    rw [TyTerm.lettered, TyTerm.literalNames_map]
    simpa [TyTerm.mentions] using harrow
  · exact TyTerm.alphaEq_iff.mpr (t.renamesTo_instantiate_lettered s)
  · rw [ofTy_eq, ofTy_eq, TyTerm.lettered_instantiate, TyTerm.lettered_lettered]
  · rw [ofTy_instantiate, ofNamed_of_toNamed hu]
    exact ⟨rfl, map_letter_eq_self_iff⟩

theorem stored_forms_round_trip_swappedNames :
    ∃ u, toNamed (lit "->" [var "b", lit "Pair" [var "a", var "b"]]) = .ok u ∧
      ofTy (u.instantiate ⟨3⟩).1 = lit "->" [var "a", lit "Pair" [var "b", var "a"]] := by
  obtain ⟨hiff, -, hback⟩ :=
    stored_forms_round_trip.2 (lit "->" [var "b", lit "Pair" [var "a", var "b"]])
  obtain ⟨u, hu⟩ := hiff.mpr (by decide)
  refine ⟨u, hu, ?_⟩
  rw [(hback u hu ⟨3⟩).1]
  decide

end TyTree
end BlockGraph
