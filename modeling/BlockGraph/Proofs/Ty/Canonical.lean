import BlockGraph.Proofs.Ty.Trees

/-!
# The comparison of types up to renaming

`alphaEq` looks at the variables that stand at the same places of two types.  What it finds
can be said in two other ways.  There is a bijection of all variables that makes the one type
the other (`renamesTo_iff_perm`), and the two types become the same when their variables are
named by order of first appearance (`lettered_eq_iff`).  The stored form of a type is this
naming, so comparing stored forms is a third way, as long as no literal is called as the arrow.

The comparison can be made in one pass, with a table for each of the two types of what its variables
were met with (`pairUp`).  The pass goes on as long as the tables hold the pairs of variables that
stand at the same places, and stops where these are not one to one (`pairUp_result`).
-/

namespace BlockGraph
namespace TyTerm

variable {a b : Ty}

/-- Only finitely many variables of the two types matter, so the renaming of these is part of a
bijection. -/
theorem renamesTo_iff_perm : a.RenamesTo b ↔ ∃ π : Equiv.Perm TyVar, a.map π = b := by
  constructor
  · rintro ⟨f, hf, rfl⟩
    obtain ⟨π, hπ, -⟩ := exists_perm_of_injective hf
    exact ⟨π, map_congr hπ⟩
  · rintro ⟨π, rfl⟩
    exact ⟨π, fun _ _ _ _ h => π.injective h, rfl⟩

theorem RenamesTo.symm (h : a.RenamesTo b) : b.RenamesTo a := by
  obtain ⟨π, rfl⟩ := renamesTo_iff_perm.mp h
  refine renamesTo_iff_perm.mpr ⟨π.symm, ?_⟩
  rw [map_map, Equiv.symm_comp_self]
  exact bind_self a

/-- Types with the same names for their variables differ by a renaming: both are renamings of what
is had by giving numbers to these names. -/
theorem lettered_eq_iff : a.lettered = b.lettered ↔ a.RenamesTo b := by
  constructor
  · intro h
    have hb : b.RenamesTo (a.lettered.instantiate {}).1 :=
      h ▸ renamesTo_instantiate_lettered b {}
    exact (renamesTo_instantiate_lettered a {}).trans hb.symm
  · rintro ⟨f, hf, rfl⟩
    exact (lettered_map hf).symm

end TyTerm

namespace TyTree

/-- Without literals that are called as the arrow, the stored form tells all types apart. -/
theorem ofNamed_inj {t u : NamedTy} (ht : arrowName ∉ t.literalNames)
    (hu : arrowName ∉ u.literalNames) : ofNamed t = ofNamed u ↔ t = u := by
  refine ⟨fun h => ?_, congrArg ofNamed⟩
  have hread := toNamed_ofNamed ht
  rw [h, toNamed_ofNamed hu] at hread
  exact (Except.ok.inj hread).symm

theorem ofTy_eq_iff {a b : Ty} (ha : a.mentions arrowName = false)
    (hb : b.mentions arrowName = false) : ofTy a = ofTy b ↔ a.RenamesTo b := by
  have hnames : ∀ t : Ty, t.mentions arrowName = false → arrowName ∉ t.lettered.literalNames := by
    intro t ht
    rw [TyTerm.lettered, TyTerm.literalNames_map]
    simpa [TyTerm.mentions] using ht
  rw [ofTy_eq, ofTy_eq, ofNamed_inj (hnames a ha) (hnames b hb), TyTerm.lettered_eq_iff]

end TyTree

/-! ## Comparing in one pass -/

/-- The variables that were met together, seen from the first type and from the second. -/
structure Pairing where
  forward : List (TyVar × TyVar) := []
  backward : List (TyVar × TyVar) := []

namespace Pairing

variable {p : Pairing} {pairs : List (TyVar × TyVar)}

/-- What a variable was met with, and the table after that.  A variable without an entry gets one.
-/
def entry (table : List (TyVar × TyVar)) (v w : TyVar) : TyVar × List (TyVar × TyVar) :=
  match table.lookup v with
  | some w' => (w', table)
  | none => (w, (v, w) :: table)

/-- Two variables stand at the same place.  Each must be what the other one is met with always. -/
def meet (p : Pairing) (v w : TyVar) : Option Pairing :=
  let forth := entry p.forward v w
  let back := entry p.backward w v
  if forth.1 = w ∧ back.1 = v then some ⟨forth.2, back.2⟩ else none

/-- The two tables hold the given pairs of variables. -/
structure Holds (p : Pairing) (pairs : List (TyVar × TyVar)) : Prop where
  forward : ∀ v w, p.forward.lookup v = some w ↔ (v, w) ∈ pairs
  backward : ∀ v w, p.backward.lookup w = some v ↔ (v, w) ∈ pairs

theorem entry_ne {table : List (TyVar × TyVar)} {v w : TyVar} (h : (entry table v w).1 ≠ w) :
    table.lookup v = some (entry table v w).1 := by
  revert h
  rw [entry]
  cases table.lookup v with
  | some w' => exact fun _ => rfl
  | none => exact fun h => absurd rfl h

theorem lookup_entry {table : List (TyVar × TyVar)} {v w : TyVar}
    (h : (entry table v w).1 = w) (x y : TyVar) :
    (entry table v w).2.lookup x = some y ↔ table.lookup x = some y ∨ x = v ∧ y = w := by
  revert h
  rw [entry]
  cases hv : table.lookup v with
  | some w' =>
    intro (heq : w' = w)
    subst heq
    refine ⟨.inl, ?_⟩
    rintro (hx | ⟨rfl, rfl⟩)
    · exact hx
    · exact hv
  | none =>
    intro _
    by_cases hx : x = v
    · simp [hx, hv, eq_comm]
    · have hne : (x == v) = false := by simpa using hx
      simp only [List.lookup_cons, hne, hx, false_and, or_false]

/-- What becomes of comparing two parts.  They have the same form and the tables hold the pairs of
their variables too, or no renaming makes them equal. -/
def Result (same : Prop) (pairs : List (TyVar × TyVar)) : Option Pairing → Prop
  | some p => same ∧ p.Holds pairs
  | none => same → ¬ TyTerm.oneToOne pairs = true

theorem Holds.oneToOne (h : p.Holds pairs) : TyTerm.oneToOne pairs = true := by
  refine TyTerm.oneToOne_iff.mpr fun q hq r hr => ⟨fun heq => ?_, fun heq => ?_⟩
  · have hlookup := (h.forward _ _).mpr hq
    rw [heq, (h.forward _ _).mpr hr] at hlookup
    exact (Option.some.inj hlookup).symm
  · have hlookup := (h.backward _ _).mpr hq
    rw [heq, (h.backward _ _).mpr hr] at hlookup
    exact (Option.some.inj hlookup).symm

theorem Holds.meet (h : p.Holds pairs) (v w : TyVar) :
    Result True (pairs ++ [(v, w)]) (p.meet v w) := by
  rw [Pairing.meet]
  have hlast : (v, w) ∈ pairs ++ [(v, w)] := List.mem_append_right _ (List.mem_singleton_self _)
  by_cases hw : (entry p.forward v w).1 = w
  · by_cases hv : (entry p.backward w v).1 = v
    · simp only [hw, hv, and_self, if_true]
      refine ⟨trivial, fun x y => ?_, fun x y => ?_⟩
      · simp [lookup_entry hw, h.forward]
      · simp [lookup_entry hv, h.backward, and_comm]
    · simp only [hv, and_false, if_false]
      intro _ hone
      have hbefore := (h.backward _ _).mp (entry_ne hv)
      exact hv ((TyTerm.oneToOne_iff.mp hone _ (List.mem_append_left _ hbefore) _ hlast).mpr rfl)
  · simp only [hw, false_and, if_false]
    intro _ hone
    have hbefore := (h.forward _ _).mp (entry_ne hw)
    exact hw ((TyTerm.oneToOne_iff.mp hone _ (List.mem_append_left _ hbefore) _ hlast).mp rfl)

/-- One part is compared after the other, with the tables that the first one leaves. -/
theorem Result.bind {same same' : Prop} {pairs' : List (TyVar × TyVar)} {out : Option Pairing}
    {next : Pairing → Option Pairing} (h : Result same pairs out)
    (hnext : ∀ p, p.Holds pairs → Result same' (pairs ++ pairs') (next p)) :
    Result (same ∧ same') (pairs ++ pairs') (out.bind next) := by
  cases out with
  | none =>
    rintro ⟨hsame, -⟩ hone
    refine h hsame (TyTerm.oneToOne_iff.mpr fun q hq r hr => ?_)
    exact TyTerm.oneToOne_iff.mp hone q (List.mem_append_left _ hq) r (List.mem_append_left _ hr)
  | some p =>
    obtain ⟨hsame, hp⟩ := h
    have hresult := hnext p hp
    rw [Option.bind_some]
    cases hout : next p with
    | none => exact fun hboth => (hout ▸ hresult) hboth.2
    | some p' =>
      rw [hout] at hresult
      exact ⟨⟨hsame, hresult.1⟩, hresult.2⟩

/-- The variables of two parts are paired as those of the whole are, if the first parts have the
same form.  Otherwise nothing is said about the pairs. -/
theorem Result.zip_append {a b : Ty} {same : Prop} {vs ws : List TyVar} {out : Option Pairing}
    (h : Result (a.map (fun _ => ()) = b.map (fun _ => ()) ∧ same)
      (pairs ++ a.leaves.zip b.leaves ++ vs.zip ws) out) :
    Result (a.map (fun _ => ()) = b.map (fun _ => ()) ∧ same)
      (pairs ++ (a.leaves ++ vs).zip (b.leaves ++ ws)) out := by
  have hzip (hform : a.map (fun _ => ()) = b.map fun _ => ()) :
      pairs ++ (a.leaves ++ vs).zip (b.leaves ++ ws) =
        pairs ++ a.leaves.zip b.leaves ++ vs.zip ws := by
    rw [List.zip_append (TyTerm.length_leaves_of_form hform), List.append_assoc]
  cases out with
  | none => exact fun hsame => hzip hsame.1 ▸ h hsame
  | some p => exact ⟨h.1, hzip h.1.1 ▸ h.2⟩

end Pairing

namespace TyTerm

mutual

/-- Compares two types from left to right, with the pairs of variables that were met so far. -/
def pairUp : Ty → Ty → Pairing → Option Pairing
  | var v, var w, p => p.meet v w
  | lit name args, lit name' args', p =>
    if name = name' ∧ args.length = args'.length then pairAll args args' p else none
  | fn domain codomain, fn domain' codomain', p =>
    (pairUp domain domain' p).bind (pairUp codomain codomain')
  | _, _, _ => none

def pairAll : List Ty → List Ty → Pairing → Option Pairing
  | t :: rest, t' :: rest', p => (pairUp t t' p).bind (pairAll rest rest')
  | _, _, p => some p

end

/-- Whether two types are found equal up to renaming in one pass. -/
def pairsUp (a b : Ty) : Bool :=
  (pairUp a b {}).isSome

mutual

theorem pairUp_result (a b : Ty) {p : Pairing} {pairs : List (TyVar × TyVar)}
    (h : p.Holds pairs) :
    Pairing.Result (a.map (fun _ => ()) = b.map fun _ => ()) (pairs ++ a.leaves.zip b.leaves)
      (pairUp a b p) := by
  match a, b with
  | var v, var w => simpa [pairUp] using h.meet v w
  | lit name args, lit name' args' =>
    rw [pairUp]
    split
    next heq =>
      obtain ⟨rfl, hlength⟩ := heq
      simpa [leavesAll_eq_flatMap] using pairAll_result args args' hlength h
    next hne =>
      intro hform
      rw [map_lit, map_lit, lit.injEq] at hform
      have hlength := congrArg List.length hform.2
      rw [List.length_map, List.length_map] at hlength
      exact absurd ⟨hform.1, hlength⟩ hne
  | fn domain codomain, fn domain' codomain' =>
    rw [pairUp]
    have hboth := (pairUp_result domain domain' h).bind fun p hp =>
      pairUp_result codomain codomain' hp
    rw [map_fn, map_fn, fn.injEq, leaves_fn, leaves_fn]
    exact hboth.zip_append
  | var _, lit _ _ | var _, fn _ _ | lit _ _, var _ | lit _ _, fn _ _ | fn _ _, var _
  | fn _ _, lit _ _ => 
    simp [pairUp, Pairing.Result]

theorem pairAll_result (as bs : List Ty) (hlength : as.length = bs.length) {p : Pairing}
    {pairs : List (TyVar × TyVar)} (h : p.Holds pairs) :
    Pairing.Result (as.map (map fun _ => ()) = bs.map (map fun _ => ()))
      (pairs ++ (leavesAll as).zip (leavesAll bs)) (pairAll as bs p) := by
  match as, bs with
  | [], [] => simpa [pairAll, leavesAll] using ⟨trivial, h⟩
  | t :: rest, t' :: rest' =>
    have hboth := (pairUp_result t t' h).bind fun p hp =>
      pairAll_result rest rest' (Nat.succ.inj hlength) hp
    rw [pairAll, List.map_cons, List.map_cons, List.cons.injEq, leavesAll, leavesAll]
    exact hboth.zip_append

end

/-- The pass through both types finds what the comparison place by place finds. -/
theorem pairsUp_eq (a b : Ty) : a.pairsUp b = a.alphaEq b := by
  have hstart : Pairing.Holds {} [] := ⟨by simp, by simp⟩
  have hresult := pairUp_result a b hstart
  rw [pairsUp, Bool.eq_iff_iff, alphaEq, Bool.and_eq_true, decide_eq_true_eq]
  cases hout : pairUp a b {} with
  | none =>
    rw [hout] at hresult
    refine ⟨fun h => (Bool.false_ne_true h).elim, fun h => ?_⟩
    exact absurd h.2 (hresult h.1)
  | some p =>
    rw [hout] at hresult
    exact ⟨fun _ => ⟨hresult.1, hresult.2.oneToOne⟩, fun _ => rfl⟩

/-! ## The three ways agree -/

/-- One pass finds two types equal exactly if some bijection of the variables makes the one the
other, and, if no literal is called as the arrow, exactly if they are stored as the same tree.  The
comparison is reflexive, symmetric and transitive. -/
theorem alphaEq_exact :
    (∀ a b : Ty, a.pairsUp b = a.alphaEq b) ∧
    (∀ a b : Ty, a.pairsUp b = true ↔ ∃ π : Equiv.Perm TyVar, a.map π = b) ∧
    (∀ a b : Ty, a.mentions TyTree.arrowName = false → b.mentions TyTree.arrowName = false →
      (a.pairsUp b = true ↔ TyTree.ofTy a = TyTree.ofTy b)) ∧
    Equivalence fun a b : Ty => a.pairsUp b = true := by
  have hpass {a b : Ty} : a.pairsUp b = true ↔ a.RenamesTo b := by rw [pairsUp_eq, alphaEq_iff]
  refine ⟨pairsUp_eq, fun a b => hpass.trans renamesTo_iff_perm, fun a b ha hb => ?_, ?_, ?_, ?_⟩
  · rw [hpass, TyTree.ofTy_eq_iff ha hb]
  · exact fun a => hpass.mpr (.refl a)
  · exact fun h => hpass.mpr (hpass.mp h).symm
  · exact fun h h' => hpass.mpr ((hpass.mp h).trans (hpass.mp h'))

/-- The two variables are exchanged. -/
theorem alphaEq_exact_swap :
    pairsUp (.fn (.var 0) (.lit "Pair" [.var 1, .var 0]))
        (.fn (.var 1) (.lit "Pair" [.var 0, .var 1])) = true ∧
      (∃ π : Equiv.Perm TyVar, (fn (.var 0) (.lit "Pair" [.var 1, .var 0])).map π =
        fn (.var 1) (.lit "Pair" [.var 0, .var 1])) ∧
      TyTree.ofTy (.fn (.var 0) (.lit "Pair" [.var 1, .var 0])) =
        TyTree.ofTy (.fn (.var 1) (.lit "Pair" [.var 0, .var 1])) := by
  have htrees := alphaEq_exact.2.2.1 (.fn (.var 0) (.lit "Pair" [.var 1, .var 0]))
    (.fn (.var 1) (.lit "Pair" [.var 0, .var 1])) (by decide) (by decide)
  have heq : pairsUp (.fn (.var 0) (.lit "Pair" [.var 1, .var 0]))
      (.fn (.var 1) (.lit "Pair" [.var 0, .var 1])) = true := by decide
  exact ⟨heq, (alphaEq_exact.2.1 _ _).mp heq, htrees.mp heq⟩

-- A literal that is called as the arrow is stored as an arrow is, and yet it is none.
example : TyTree.ofTy (.lit "->" [.var 0, .var 1]) = TyTree.ofTy (.fn (.var 0) (.var 1)) ∧
    pairsUp (.lit "->" [.var 0, .var 1]) (.fn (.var 0) (.var 1)) = false := by
  decide

end TyTerm
end BlockGraph
