import BlockGraph.Proofs.Unification.Chasing
import BlockGraph.Proofs.Unification.Mirroring
import Mathlib.Data.List.Find

/-!
# Solving in numbered tables

`Solver` speaks of classes of variables and solves equations that hold no variable with
a value.  `Tables` keeps the same in four places that have to be held together.  A
variable gets a number, its key, when an equation first speaks of it.  Classes are kept
as classes of keys, values by key, and two tables lead from variables to keys and back.
Sides of an equation are looked up only as far as their heads, the recursions are not
on parts of what they are called with, and a failure is undone place by place.

`Represents` says which solver tables stand for.  Each change of the tables is a change
of the solver, so what is known of solvers carries over: the values of a solver lead
nowhere back, and this is why the recursions end.
-/

namespace BlockGraph

/-- What a solver holds, by numbers of variables. -/
structure Tables where
  /-- How many keys have been handed out. -/
  count : Nat := 0
  /-- The classes of keys. -/
  classes : Classes := {}
  keys : TyVar → Option Nat := fun _ => none
  /-- The variable of each key. -/
  vars : List TyVar := []
  /-- The values of classes, by representative. -/
  values : List (Nat × Ty) := []

/-- The merge of the classes of other numbers. -/
def Merge.map (f : Nat → TyVar) (m : Merge) : Merge :=
  ⟨f m.absorbed, f m.kept, m.rank⟩

/-- The comparison after a replacement that leaves the heads as they are. -/
def Comparison.bind (f : TyVar → Ty) : Comparison → Comparison
  | .variable v t => .variable v (t.bind f)
  | .parts es => .parts (Equation.bindAll f es)
  | c => c

theorem compareHeads_bind {f : TyVar → Ty} {l r : Ty} (hl : ∀ v, l = .var v → f v = .var v)
    (hr : ∀ v, r = .var v → f v = .var v) :
    compareHeads (l.bind f) (r.bind f) = (compareHeads l r).bind f := by
  fun_cases compareHeads l r
  case case6 name args name' args' hname => simp [compareHeads, Comparison.bind, hname]
  case case7 name args name' args' hname hlen =>
    have hname : name = name' := by simpa using hname
    simp [compareHeads, Comparison.bind, hname, hlen]
  case case8 name args name' args' hname hlen =>
    have hname : name = name' := by simpa using hname
    have hlen : args.length = args'.length := by simpa using hlen
    simp only [TyTerm.bind_lit, compareHeads, hname, ne_eq, not_true_eq_false, if_false,
      List.length_map, hlen, Comparison.bind, Equation.bindAll]
    rw [List.zip_map]
    rfl
  all_goals simp_all [compareHeads, Comparison.bind, Equation.bindAll]

namespace Tables

variable {T T' : Tables} {s s' : Solver} {j k : Nat} {v w : TyVar} {t u l r : Ty}
  {es rest : List Equation}

/-! ## The recursions -/

def value? (T : Tables) (v : TyVar) : Option Ty :=
  (T.keys v).bind fun k => T.values.lookup (T.classes.rep k)

/-- The key of a variable, which gets one if it has none. -/
def key (T : Tables) (v : TyVar) : Nat × Tables :=
  match T.keys v with
  | some k => (k, T)
  | none => (T.count, { T with
      count := T.count + 1
      keys := fun w => if w = v then some T.count else T.keys w
      vars := T.vars ++ [v] })

def zonk? (T : Tables) : Ty → Option Ty
  | .var v =>
    match T.value? v with
    | some u => T |>.zonk? u
    | none =>
      match T.keys v with
      | some k => T.vars[T.classes.rep k]?.map .var
      | none => some (.var v)
  | .lit name args => do return .lit name (← args.mapM (T |>.zonk? ·))
  | .fn domain codomain => do return .fn (← T |>.zonk? domain) (← T |>.zonk? codomain)
partial_fixpoint

def resolve? (T : Tables) : Ty → Option Ty
  | .var v =>
    match T.value? v with
    | some u => T |>.resolve? u
    | none => some (.var v)
  | t => some t
partial_fixpoint

def unite (T : Tables) (v w : TyVar) : Tables :=
  let (k, T) := T.key v
  let (l, T) := T.key w
  { T with classes := T.classes.merge k l }

/-- Gives a value to the class of a variable.  A failure comes with the tables as it leaves them. -/
def assign? (T : Tables) (v : TyVar) (t : Ty) : ExceptT (TypeError × Tables) Option Tables := do
  let (k, T) := T.key v
  let u ← T.zonk? t
  if u.vars.any fun w => (T.keys w).any fun j => T.classes.rep j = T.classes.rep k then
    throw (.occurs v u, T)
  else return { T with values := (T.classes.rep k, u) :: T.values }

/-- Makes two types equal. -/
def unify? (T : Tables) (l r : Ty) : ExceptT (TypeError × Tables) Option Tables := do
  let l ← T.resolve? l
  let r ← T.resolve? r
  match compareHeads l r with
  | .variables v w => return T.unite v w
  | .variable v t => T.assign? v t
  | .parts equations => equations.foldlM (fun T e => T |>.unify? e.1 e.2) T
  | .clash kind => throw (.mismatch kind (← T.zonk? l) (← T.zonk? r), T)
partial_fixpoint

def unifyEach? (T : Tables) (es : List Equation) : ExceptT (TypeError × Tables) Option Tables :=
  es.foldlM (fun T e => T.unify? e.1 e.2) T

/-- The tables with what has been done since `T` undone: the classes and values are those of `T`,
and the variables that have got a key since are taken out. -/
def rollBack (T' T : Tables) : Tables :=
  { T with
    vars := T'.vars.take T.vars.length
    keys := fun v => if v ∈ T'.vars.drop T.vars.length then none else T'.keys v }

/-- Adds an equation, or says why this cannot be done. -/
def constrain? (T : Tables) (l r : Ty) : Option (Option TypeError × Tables) := do
  match ← (T.unify? l r).run with
  | .ok T' => return (none, T')
  | .error (e, T') => return (some e, T'.rollBack T)

def constrainAll? (T : Tables) : List Equation → Option (Tables × List (Option TypeError))
  | [] => some (T, [])
  | (l, r) :: rest => do
    let (e, T) ← T.constrain? l r
    let (T, es) ← T.constrainAll? rest
    return (T, e :: es)

/-! ## What tables stand for -/

def varAt (T : Tables) (k : Nat) : TyVar :=
  T.vars.getD k 0

/-- Variables and keys lead to each other, all keys have been handed out, and the solver holds for
variables what the tables hold for their keys. -/
structure Represents (T : Tables) (s : Solver) : Prop where
  numbered : ∀ v k, T.keys v = some k ↔ T.vars[k]? = some v
  count : T.count = T.vars.length
  ends : ∀ m ∈ T.classes.merges, m.absorbed < T.count ∧ m.kept < T.count
  keyed : ∀ b ∈ T.values, b.1 < T.count
  known : s.known = T.vars
  merges : s.classes.merges = T.classes.merges.map (Merge.map T.varAt)
  values : s.values = T.values.map fun b => (T.varAt b.1, b.2)

theorem empty_represents : Represents {} .empty :=
  ⟨fun _ _ => by simp, rfl, fun _ h => absurd h List.not_mem_nil,
    fun _ h => absurd h List.not_mem_nil, rfl, rfl, rfl⟩

namespace Represents

theorem varAt_eq (h : T.vars[k]? = some v) : T.varAt k = v := by
  rw [varAt, List.getD_eq_getElem?_getD, h, Option.getD_some]

theorem getElem? (h : T.Represents s) (hk : k < T.count) : T.vars[k]? = some (T.varAt k) := by
  rw [h.count] at hk
  rw [List.getElem?_eq_getElem hk, varAt_eq (List.getElem?_eq_getElem hk)]

theorem keys_varAt (h : T.Represents s) (hk : k < T.count) : T.keys (T.varAt k) = some k :=
  (h.numbered _ _).mpr (h.getElem? hk)

theorem of_keys (h : T.Represents s) (hk : T.keys v = some k) : k < T.count ∧ T.varAt k = v := by
  have hv := (h.numbered v k).mp hk
  exact ⟨h.count ▸ (List.getElem?_eq_some_iff.mp hv).1, varAt_eq hv⟩

theorem varAt_inj (h : T.Represents s) (hj : j < T.count) (hk : k < T.count) :
    T.varAt j = T.varAt k ↔ j = k := by
  refine ⟨fun heq => ?_, congrArg T.varAt⟩
  have hkeys := h.keys_varAt hj
  rw [heq, h.keys_varAt hk] at hkeys
  exact (Option.some_inj.mp hkeys).symm

/-! ### Classes and values -/

private theorem find_map {ms : List Merge} (h : T.Represents s)
    (hms : ∀ m ∈ ms, m.absorbed < T.count ∧ m.kept < T.count) (hk : k < T.count) :
    Merge.find ms k < T.count ∧
      Merge.find (ms.map (Merge.map T.varAt)) (T.varAt k) = T.varAt (Merge.find ms k) := by
  induction ms with
  | nil => exact ⟨hk, rfl⟩
  | cons m ms ih =>
    obtain ⟨hlt, heq⟩ := ih fun m' hm' => hms m' (List.mem_cons_of_mem m hm')
    obtain ⟨habsorbed, hkept⟩ := hms m List.mem_cons_self
    show m.redirect (Merge.find ms k) < _ ∧
      (m.map T.varAt).redirect (Merge.find (ms.map (Merge.map T.varAt)) (T.varAt k)) =
        T.varAt (m.redirect (Merge.find ms k))
    rw [heq, Merge.redirect, Merge.redirect]
    have hat : T.varAt (Merge.find ms k) = (m.map T.varAt).absorbed ↔ _ :=
      h.varAt_inj hlt habsorbed
    by_cases hm : Merge.find ms k = m.absorbed
    · rw [if_pos hm, if_pos (hat.mpr hm)]
      exact ⟨hkept, rfl⟩
    · rw [if_neg hm, if_neg (hat.not.mpr hm)]
      exact ⟨hlt, rfl⟩

theorem rep_lt (h : T.Represents s) (hk : k < T.count) : T.classes.rep k < T.count :=
  (h.find_map h.ends hk).1

theorem rep_varAt (h : T.Represents s) (hk : k < T.count) :
    s.rep (T.varAt k) = T.varAt (T.classes.rep k) := by
  rw [Solver.rep, Classes.rep, h.merges]
  exact (h.find_map h.ends hk).2

theorem rank_varAt (h : T.Represents s) (hk : k < T.count) :
    s.classes.rank (T.varAt k) = T.classes.rank k := by
  have hfind : T.classes.merges.find? ((fun m => decide (m.kept = T.varAt k)) ∘ Merge.map T.varAt) =
      T.classes.merges.find? fun m => decide (m.kept = k) :=
    List.find?_congr fun m hm => decide_eq_decide.mpr (h.varAt_inj (h.ends m hm).2 hk)
  rw [Classes.rank, Classes.rank, h.merges, List.find?_map, hfind]
  cases T.classes.merges.find? fun m => decide (m.kept = k) <;> rfl

private theorem lookup_map {values : List (Nat × Ty)} (h : T.Represents s)
    (hvalues : ∀ b ∈ values, b.1 < T.count) (hk : k < T.count) :
    (values.map fun b => (T.varAt b.1, b.2)).lookup (T.varAt k) = values.lookup k := by
  induction values with
  | nil => rfl
  | cons b rest ih =>
    have hb := h.varAt_inj hk (hvalues b List.mem_cons_self)
    rw [List.map_cons, List.lookup_cons, List.lookup_cons,
      ih fun d hd => hvalues d (List.mem_cons_of_mem b hd)]
    by_cases hkb : k = b.1
    · simp [hkb]
    · simp [beq_false_of_ne hkb, beq_false_of_ne (hb.not.mpr hkb)]

/-- A variable without a key is a class of its own, which has no value. -/
theorem of_unknown (h : T.Represents s) (hv : T.keys v = none) :
    s.rep v = v ∧ s.value? v = none := by
  have hne : ∀ k, k < T.count → T.varAt k ≠ v := fun k hk heq => by
    have hkeys := h.keys_varAt hk
    rw [heq, hv] at hkeys
    cases hkeys
  have hfind : ∀ ms : List Merge, (∀ m ∈ ms, m.absorbed ≠ v) → Merge.find ms v = v := by
    intro ms hms
    induction ms with
    | nil => rfl
    | cons m ms ih =>
      show m.redirect (Merge.find ms v) = v
      rw [ih fun m' hm' => hms m' (List.mem_cons_of_mem m hm'), Merge.redirect,
        if_neg (hms m List.mem_cons_self).symm]
  have hrep : s.rep v = v := by
    rw [Solver.rep, Classes.rep, h.merges]
    refine hfind _ fun m hm => ?_
    obtain ⟨m', hm', rfl⟩ := List.mem_map.mp hm
    exact hne _ (h.ends m' hm').1
  refine ⟨hrep, ?_⟩
  rw [Solver.value?, hrep, h.values, List.lookup_eq_none_iff]
  intro b hb
  obtain ⟨d, hd, rfl⟩ := List.mem_map.mp hb
  exact bne_iff_ne.mpr (hne _ (h.keyed d hd)).symm

theorem value?_eq (h : T.Represents s) (v : TyVar) : T.value? v = s.value? v := by
  rw [value?]
  cases hv : T.keys v with
  | none => exact (h.of_unknown hv).2.symm
  | some k =>
    obtain ⟨hk, rfl⟩ := h.of_keys hv
    rw [Solver.value?, h.rep_varAt hk, h.values, h.lookup_map h.keyed (h.rep_lt hk)]
    rfl

/-! ### Changes -/

theorem varAt_append (h : T.Represents s) {more : List TyVar} (hvars : T'.vars = T.vars ++ more)
    (hk : k < T.count) : T'.varAt k = T.varAt k := by
  rw [varAt, varAt, hvars, List.getD_eq_getElem?_getD, List.getElem?_append_left (h.count ▸ hk),
    List.getD_eq_getElem?_getD]

theorem key (h : T.Represents s) (v : TyVar) :
    (T.key v).2.Represents (s.learn v) ∧ (T.key v).2.keys v = some (T.key v).1 ∧
      T.vars <+: (T.key v).2.vars := by
  rw [Tables.key]
  cases hv : T.keys v with
  | some k =>
    have hknown : s.learn v = s := by
      rw [Solver.learn, if_pos]
      rw [h.known]
      exact List.mem_of_getElem? ((h.numbered v k).mp hv)
    rw [hknown]
    exact ⟨h, hv, List.prefix_rfl⟩
  | none =>
    have hnew : ∀ k, T.vars[k]? ≠ some v := fun k hk => by
      rw [(h.numbered v k).mpr hk] at hv
      cases hv
    have hlearn : s.learn v = { s with known := T.vars ++ [v] } := by
      rw [Solver.learn, if_neg, h.known]
      rw [h.known, List.mem_iff_getElem?]
      rintro ⟨k, hk⟩
      exact hnew k hk
    have hat : ∀ k < T.count, Tables.varAt { T with vars := T.vars ++ [v] } k = T.varAt k :=
      fun k hk => h.varAt_append rfl hk
    refine ⟨⟨fun w k => ?_, ?_, fun m hm => ?_, fun b hb => ?_, ?_, ?_, ?_⟩, if_pos rfl,
      List.prefix_append _ _⟩
    · show (if w = v then some T.count else T.keys w) = some k ↔ (T.vars ++ [v])[k]? = some w
      rcases Nat.lt_trichotomy k T.count with hk | rfl | hk
      · rw [List.getElem?_append_left (h.count ▸ hk), ← h.numbered]
        split
        · next hwv => simp [hwv, hv, Nat.ne_of_gt hk]
        · rfl
      · have hnone : T.keys w ≠ some T.count := fun hw => Nat.lt_irrefl _ (h.of_keys hw).1
        rw [h.count, List.getElem?_concat_length, ← h.count]
        split
        · next hwv => simp [hwv]
        · next hwv => simp [hnone, Ne.symm hwv]
      · have hlong : (T.vars ++ [v]).length ≤ k := by
          rw [List.length_append, ← h.count]
          exact hk
        have hnone : T.keys w ≠ some k := fun hw => Nat.lt_asymm hk (h.of_keys hw).1
        rw [List.getElem?_eq_none hlong]
        split
        · simp [Nat.ne_of_lt hk]
        · simp [hnone]
    · show T.count + 1 = (T.vars ++ [v]).length
      rw [List.length_append, ← h.count]
      rfl
    · exact (h.ends m hm).imp Nat.lt_succ_of_lt Nat.lt_succ_of_lt
    · exact Nat.lt_succ_of_lt (h.keyed b hb)
    · rw [hlearn]
    · rw [hlearn]
      refine h.merges.trans (List.map_congr_left fun m hm => ?_)
      rw [Merge.map, Merge.map]
      exact congrArg₂ (Merge.mk · · m.rank) (hat _ (h.ends m hm).1).symm
        (hat _ (h.ends m hm).2).symm
    · rw [hlearn]
      refine h.values.trans (List.map_congr_left fun b hb => ?_)
      exact congrArg (·, b.2) (hat _ (h.keyed b hb)).symm

theorem union (h : T.Represents s) (hj : j < T.count) (hk : k < T.count) :
    s.classes.union (T.varAt j) (T.varAt k) = (T.classes.union j k).map T.varAt := by
  have hrj : s.classes.rep (T.varAt j) = T.varAt (T.classes.rep j) := h.rep_varAt hj
  have hrk : s.classes.rep (T.varAt k) = T.varAt (T.classes.rep k) := h.rep_varAt hk
  unfold Classes.union
  rw [hrj, hrk, h.rank_varAt (h.rep_lt hj), h.rank_varAt (h.rep_lt hk)]
  split
  · rfl
  · split <;> rfl

theorem merge (h : T.Represents s) (hj : j < T.count) (hk : k < T.count) :
    Represents { T with classes := T.classes.merge j k }
      { s with classes := s.classes.merge (T.varAt j) (T.varAt k) } := by
  have hrj : s.classes.rep (T.varAt j) = T.varAt (T.classes.rep j) := h.rep_varAt hj
  have hrk : s.classes.rep (T.varAt k) = T.varAt (T.classes.rep k) := h.rep_varAt hk
  by_cases hjk : T.classes.rep j = T.classes.rep k
  · rw [Classes.merge_of_rep_eq _ _ _ hjk, Classes.merge_of_rep_eq _ _ _ (by rw [hrj, hrk, hjk])]
    exact h
  · have hne : s.classes.rep (T.varAt j) ≠ s.classes.rep (T.varAt k) := by
      rw [hrj, hrk]
      exact (h.varAt_inj (h.rep_lt hj) (h.rep_lt hk)).not.mpr hjk
    refine ⟨h.numbered, h.count, fun m hm => ?_, h.keyed, h.known, ?_, h.values⟩
    · rw [Classes.merges_merge hjk] at hm
      rcases List.mem_cons.mp hm with rfl | hm
      · rcases T.classes.union_ends j k with ⟨ha, hb⟩ | ⟨ha, hb⟩ <;> rw [ha, hb]
        · exact ⟨h.rep_lt hj, h.rep_lt hk⟩
        · exact ⟨h.rep_lt hk, h.rep_lt hj⟩
      · exact h.ends m hm
    · show (s.classes.merge _ _).merges = (T.classes.merge j k).merges.map _
      rw [Classes.merges_merge hne, Classes.merges_merge hjk, h.union hj hk, h.merges]
      rfl

theorem keys_of_more (h : T.Represents s) (h' : T'.Represents s') (hvars : T.vars <+: T'.vars)
    (hv : T.keys v = some k) : T'.keys v = some k := by
  obtain ⟨more, hmore⟩ := hvars
  have hk := (h.numbered v k).mp hv
  rw [h'.numbered, ← hmore, List.getElem?_append_left (List.getElem?_eq_some_iff.mp hk).1, hk]

theorem unite (h : T.Represents s) (v w : TyVar) :
    (T.unite v w).Represents (s.merge v w) ∧ T.vars <+: (T.unite v w).vars := by
  obtain ⟨h₁, hv, hvars⟩ := h.key v
  obtain ⟨h₂, hw, hvars'⟩ := h₁.key w
  obtain ⟨hk, hkv⟩ := h₂.of_keys (h₁.keys_of_more h₂ hvars' hv)
  obtain ⟨hl, hlw⟩ := h₂.of_keys hw
  have hclasses : ((s.learn v).learn w).classes = s.classes := by
    simp only [Solver.learn]
    split <;> split <;> rfl
  have hmerge := h₂.merge hk hl
  rw [hkv, hlw, hclasses] at hmerge
  exact ⟨hmerge, hvars.trans hvars'⟩

theorem assign (h : T.Represents s) (hk : T.keys v = some k) (u : Ty) :
    Represents { T with values := (T.classes.rep k, u) :: T.values }
      { s with values := (s.rep v, u) :: s.values } := by
  obtain ⟨hlt, rfl⟩ := h.of_keys hk
  refine ⟨h.numbered, h.count, h.ends, fun b hb => ?_, h.known, h.merges, ?_⟩
  · rcases List.mem_cons.mp hb with rfl | hb
    · exact h.rep_lt hlt
    · exact h.keyed b hb
  · show (_, u) :: s.values = (_, u) :: T.values.map _
    rw [h.rep_varAt hlt, h.values]
    rfl

end Represents

/-! ## The recursions end -/

theorem zonk?_descends (T : Tables) : TyTerm.Descends T.zonk? :=
  ⟨fun name args => by rw [zonk?], fun domain codomain => by rw [zonk?]⟩

theorem Represents.zonk?_eq (h : T.Represents s) (hs : s.Layered) (t : Ty) :
    T.zonk? t = some (s.zonk t) := by
  have hvar : ∀ v, T.zonk? (.var v) = some (s.image v) := by
    intro v
    induction v using hs.wellFounded.induction with
    | _ v ih =>
      rw [zonk?, h.value?_eq]
      cases hu : s.value? v with
      | some u =>
        have himage : s.image v = u.bind s.image := by
          rw [← Solver.zonk_eq_bind hs, Solver.image, Solver.zonk, Solver.expand_var_of_some hs hu]
          rfl
        rw [himage]
        exact T.zonk?_descends.eq_bind fun w hw => ih w ⟨u, hu, w, hw, rfl⟩
      | none =>
        rw [Solver.image_of_none hu]
        cases hk : T.keys v with
        | none => rw [(h.of_unknown hk).1]
        | some k =>
          obtain ⟨hlt, rfl⟩ := h.of_keys hk
          rw [h.rep_varAt hlt]
          simp only [h.getElem? (h.rep_lt hlt), Option.map_some]
  rw [Solver.zonk_eq_bind hs]
  exact T.zonk?_descends.eq_bind fun v _ => hvar v

/-- What is looked up stands for the same and is not a variable with a value. -/
theorem Represents.exists_resolve? (h : T.Represents s) (hs : s.Layered) (t : Ty) :
    ∃ u, T.resolve? t = some u ∧ s.expand u = s.expand t ∧
      ∀ v, u = .var v → s.value? v = none := by
  have hhead : ∀ t : Ty, (∀ v, t ≠ .var v) → T.resolve? t = some t := fun t ht =>
    resolve?.eq_2 T t ht
  have hvar : ∀ v, ∃ u, T.resolve? (.var v) = some u ∧ s.expand u = s.expand (.var v) ∧
      ∀ w, u = .var w → s.value? w = none := by
    intro v
    induction v using hs.wellFounded.induction with
    | _ v ih =>
      rw [resolve?, h.value?_eq]
      cases hu : s.value? v with
      | none =>
        refine ⟨.var v, rfl, rfl, fun w hw => ?_⟩
        cases hw
        exact hu
      | some u =>
        rw [Solver.expand_var_of_some hs hu]
        by_cases hvar : ∃ w, u = .var w
        · obtain ⟨w, rfl⟩ := hvar
          exact ih w ⟨.var w, hu, w, List.mem_singleton_self w, rfl⟩
        · have hne : ∀ w, u ≠ .var w := fun w hw => hvar ⟨w, hw⟩
          exact ⟨u, hhead u hne, rfl, fun w hw => absurd hw (hne w)⟩
  by_cases ht : ∃ v, t = .var v
  · obtain ⟨v, rfl⟩ := ht
    exact hvar v
  · have hne : ∀ w, t ≠ .var w := fun w hw => ht ⟨w, hw⟩
    exact ⟨t, hhead t hne, rfl, fun w hw => absurd hw (hne w)⟩

/-- The tables succeed where the solver succeeds, and then represent what it has come to.  Where it
fails they fail with the same error, after some variables may have got keys. -/
inductive Follows (T : Tables) :
    ExceptT (TypeError × Tables) Option Tables → Except TypeError Solver → Prop
  | ok {T' : Tables} {s' : Solver} (h : T'.Represents s') (hvars : T.vars <+: T'.vars) :
      Follows T (pure T') (.ok s')
  | error {T' : Tables} {s' : Solver} {e : TypeError} (h : T'.Represents s')
      (hvars : T.vars <+: T'.vars) : Follows T (throw (e, T')) (.error e)

theorem Follows.of_more {out : ExceptT (TypeError × Tables) Option Tables}
    {result : Except TypeError Solver} (hvars : T.vars <+: T'.vars)
    (hout : Follows T' out result) : Follows T out result := by
  cases hout with
  | ok h hvars' => exact .ok h (hvars.trans hvars')
  | error h hvars' => exact .error h (hvars.trans hvars')

theorem Represents.occurs_eq (h : T.Represents s) (hk : T.keys v = some k) (t : Ty) :
    ((t.map s.rep).vars.any fun w => (T.keys w).any fun j => T.classes.rep j = T.classes.rep k) =
      t.leaves.any fun w => s.rep w = s.rep v := by
  obtain ⟨hlt, rfl⟩ := h.of_keys hk
  rw [Bool.eq_iff_iff, List.any_eq_true, List.any_eq_true]
  constructor
  · rintro ⟨w, hw, hocc⟩
    obtain ⟨y, hy, rfl⟩ := TyTerm.mem_leaves_map_iff.mp (TyTerm.mem_vars.mp hw)
    obtain ⟨j, hj, hjk⟩ := (Option.any_eq_true _ _).mp hocc
    obtain ⟨hj, hjy⟩ := h.of_keys hj
    refine ⟨y, hy, decide_eq_true ?_⟩
    rw [← Solver.rep_rep, ← hjy, h.rep_varAt hj, h.rep_varAt hlt, of_decide_eq_true hjk]
  · rintro ⟨y, hy, hyv⟩
    refine ⟨s.rep y, TyTerm.mem_vars.mpr (TyTerm.mem_leaves_map_iff.mpr ⟨y, hy, rfl⟩), ?_⟩
    rw [of_decide_eq_true hyv, h.rep_varAt hlt, h.keys_varAt (h.rep_lt hlt)]
    exact decide_eq_true (T.classes.rep_rep k)

/-- A value is given as the solver gives it. -/
theorem Represents.assign?_eq (h : T.Represents s) (hs : s.Layered) (v : TyVar) (t : Ty) :
    ∃ T₁ T₂ s₁, T₁.Represents s₁ ∧ T₂.Represents (s.assign v (s.zonk t)) ∧ T.vars <+: T₁.vars ∧
      T.vars <+: T₂.vars ∧ T.assign? v t =
        if (s.expand t).leaves.any fun w => s.rep w = s.rep v then throw (.occurs v (s.zonk t), T₁)
        else pure T₂ := by
  obtain ⟨h₁, hk, hvars⟩ := h.key v
  have hzonk : (s.learn v).zonk t = s.zonk t := by
    rw [Solver.zonk, Solver.expand_learn, Solver.zonk]
    exact TyTerm.map_congr fun w _ => s.rep_learn v w
  have hvalues : (s.learn v).values = s.values := by
    rw [Solver.learn]
    split <;> rfl
  have h₂ := h₁.assign hk (s.zonk t)
  rw [hvalues, Solver.rep_learn] at h₂
  have hocc := h₁.occurs_eq hk (s.expand t)
  have hrep : (s.learn v).rep = s.rep := funext (s.rep_learn v)
  rw [hrep] at hocc
  refine ⟨_, _, _, h₁, h₂, hvars, hvars, ?_⟩
  have hvalue := h₁.zonk?_eq (Solver.learn_layered hs v) t
  rw [assign?, ← hocc]
  generalize T.key v = p at hvalue
  obtain ⟨k, T₁⟩ := p
  dsimp only at hvalue ⊢
  rw [hvalue, hzonk]
  rfl

/-- One equation, and then those after it.  The heads of its sides are looked up, and they compare
as the sides do with all values put in. -/
theorem Represents.exists_cons (h : T.Represents s) (hs : s.Layered)
    (hes : Equation.bindAll (fun v => s.expand (.var v)) es = (l, r) :: rest) :
    ∃ rest₀ c, rest = Equation.bindAll (fun v => s.expand (.var v)) rest₀ ∧
      compareHeads l r = Comparison.bind (fun v => s.expand (.var v)) c ∧
      T.unifyEach? es =
        match c with
        | .variables v w => (T.unite v w).unifyEach? rest₀
        | .variable v t => do (← T.assign? v t).unifyEach? rest₀
        | .parts equations => T.unifyEach? (equations ++ rest₀)
        | .clash kind => throw (.mismatch kind (l.map s.rep) (r.map s.rep), T) := by
  obtain ⟨l, r, rest, rfl, rfl, rfl, rfl⟩ := Equation.exists_of_bindAll_eq_cons hes
  rw [← Solver.expand_eq_bind hs, ← Solver.expand_eq_bind hs]
  obtain ⟨l₀, hl, hl₀, hlhead⟩ := h.exists_resolve? hs l
  obtain ⟨r₀, hr, hr₀, hrhead⟩ := h.exists_resolve? hs r
  refine ⟨rest, compareHeads l₀ r₀, rfl, ?_, ?_⟩
  · rw [← hl₀, ← hr₀, Solver.expand_eq_bind hs l₀, Solver.expand_eq_bind hs r₀]
    exact compareHeads_bind (fun v hv => Solver.expand_var_of_none (hlhead v hv))
      fun v hv => Solver.expand_var_of_none (hrhead v hv)
  have hzonk : T.zonk? = fun t => some ((s.expand t).map s.rep) := funext (h.zonk?_eq hs)
  have hunify : T.unify? l r =
      match compareHeads l₀ r₀ with
      | .variables v w => return T.unite v w
      | .variable v t => T.assign? v t
      | .parts equations => T.unifyEach? equations
      | .clash kind =>
        throw (.mismatch kind ((s.expand l).map s.rep) ((s.expand r).map s.rep), T) := by
    rw [unify?, hl, hr, hzonk, ← hl₀, ← hr₀]
    rfl
  rw [unifyEach?, List.foldlM_cons, hunify]
  cases compareHeads l₀ r₀ with
  | parts equations => exact List.foldlM_append.symm
  | _ => rfl

/-- The tables do what the solver does on the equations with all values put in. -/
theorem Represents.unifyEach?_follows (h : T.Represents s) (hs : s.Layered) (es : List Equation) :
    Follows T (T.unifyEach? es)
      (s.solveAll (Equation.bindAll (fun v => s.expand (.var v)) es)) := by
  generalize hexpanded : Equation.bindAll (fun v => s.expand (.var v)) es = expanded
  have hes : ∀ w ∈ Equation.leaves expanded, s.value? w = none := by
    intro w hw
    rw [← hexpanded] at hw
    obtain ⟨x, _, hw⟩ := Equation.mem_leaves_bindAll hw
    exact Solver.leaves_expand hs hw
  induction s, expanded using Solver.solveAll.induct generalizing T es with
  | case1 s =>
    rw [List.map_eq_nil_iff.mp hexpanded, Solver.solveAll]
    exact .ok h List.prefix_rfl
  | case2 s l r rest v w hc ih =>
    obtain ⟨rest, c, rfl, hcmp, hstep⟩ := h.exists_cons hs hexpanded
    rw [hstep, Solver.solveAll_cons, hc]
    rw [hc] at hcmp
    cases c with
    | «variables» v w =>
      cases hcmp
      obtain ⟨rfl, rfl⟩ := compareHeads_variables hc
      have hv : s.value? v = none := hes v (by simp)
      have hw : s.value? w = none := hes w (by simp)
      obtain ⟨h', hvars⟩ := h.unite v w
      refine .of_more hvars (ih h' (Solver.merge_layered hs hv hw) rest ?_ fun x hx => ?_)
      · simp only [Solver.expand_merge hv hw]
      · rw [Solver.value?_merge hv hw]
        exact hes x (by simp [hx])
    | _ => cases hcmp
  | case3 s l r rest v t hc hocc =>
    obtain ⟨rest, c, rfl, hcmp, hstep⟩ := h.exists_cons hs hexpanded
    rw [hstep, Solver.solveAll_cons, hc]
    rw [hc] at hcmp
    cases c with
    | «variable» v t =>
      cases hcmp
      rw [← Solver.expand_eq_bind hs] at hocc ⊢
      obtain ⟨T₁, T₂, s₁, h₁, -, hvars, -, hassign⟩ := h.assign?_eq hs v t
      simp only [hassign, hocc, if_true]
      exact .error h₁ hvars
    | _ => cases hcmp
  | case4 s l r rest v t hc hocc ih =>
    obtain ⟨rest, c, rfl, hcmp, hstep⟩ := h.exists_cons hs hexpanded
    obtain ⟨hv, ht⟩ := Solver.unvalued_of_variable hc hes
    rw [hstep, Solver.solveAll_cons, hc]
    rw [hc] at hcmp
    cases c with
    | «variable» v t =>
      cases hcmp
      rw [← Solver.expand_eq_bind hs] at hocc ht ih ⊢
      obtain ⟨T₁, T₂, s₁, -, h₂, -, hvars, hassign⟩ := h.assign?_eq hs v t
      simp only [hassign, hocc, Bool.false_eq_true, if_false]
      have hocc : ∀ w ∈ (s.expand t).leaves, s.rep w ≠ s.rep v := by simpa using hocc
      refine .of_more hvars (ih h₂ (Solver.assign_layered hs ht hocc) rest ?_ fun x hx => ?_)
      · rw [Equation.bindAll_bindAll]
        simp only [Solver.expand_assign hs hv ht hocc]
      · exact Solver.value?_assign_bindAll ht hocc (fun w hw => hes w (by simp [hw])) hx
    | _ => cases hcmp
  | case5 s l r rest equations hc ih =>
    obtain ⟨rest, c, rfl, hcmp, hstep⟩ := h.exists_cons hs hexpanded
    rw [hstep, Solver.solveAll_cons, hc]
    rw [hc] at hcmp
    cases c with
    | parts equations =>
      cases hcmp
      exact ih h hs _ (List.map_append ..) fun x hx => hes x (leaves_of_parts hc hx)
    | _ => cases hcmp
  | case6 s l r rest kind hc =>
    obtain ⟨rest, c, rfl, hcmp, hstep⟩ := h.exists_cons hs hexpanded
    rw [hstep, Solver.solveAll_cons, hc]
    rw [hc] at hcmp
    cases c with
    | clash kind =>
      cases hcmp
      exact .error h List.prefix_rfl
    | _ => cases hcmp

/-! ## Equations one after another -/

theorem Represents.unify?_follows (h : T.Represents s) (hs : s.Layered) (l r : Ty) :
    Follows T (T.unify? l r) (s.constrain l r) := by
  have hone : T.unifyEach? [(l, r)] = T.unify? l r := bind_pure _
  have hfollows := h.unifyEach?_follows hs [(l, r)]
  rw [hone] at hfollows
  rw [Solver.constrain, Solver.expand_eq_bind hs l, Solver.expand_eq_bind hs r]
  exact hfollows

/-- What has been added since is all that is undone. -/
theorem Represents.rollBack_eq (h : T.Represents s) (h' : T'.Represents s')
    (hvars : T.vars <+: T'.vars) : T'.rollBack T = T := by
  obtain ⟨more, hmore⟩ := hvars
  have hkeys : ∀ v, (if v ∈ more then none else T'.keys v) = T.keys v := by
    intro v
    split
    · next hv =>
      -- A variable has one key only, and the key of this one is none that `T` has given.
      cases hk : T.keys v with
      | none => rfl
      | some k =>
        have hold := h.keys_of_more h' ⟨more, hmore⟩ hk
        obtain ⟨j, hj⟩ := List.mem_iff_getElem?.mp hv
        have hnew : T'.keys v = some (T.vars.length + j) := by
          rw [h'.numbered, ← hmore, List.getElem?_append_right (Nat.le_add_right _ _),
            Nat.add_sub_cancel_left, hj]
        cases hold.symm.trans hnew
        exact absurd (h.of_keys hk).1 (by rw [h.count]; omega)
    · next hv =>
      refine Option.ext fun k => ?_
      rw [h'.numbered, h.numbered, ← hmore]
      by_cases hk : k < T.vars.length
      · rw [List.getElem?_append_left hk]
      · rw [List.getElem?_append_right (Nat.le_of_not_lt hk),
          List.getElem?_eq_none (Nat.le_of_not_lt hk)]
        exact ⟨fun hmem => absurd (List.mem_of_getElem? hmem) hv, fun hmem => by cases hmem⟩
  rw [rollBack, ← hmore, List.take_left, List.drop_left]
  exact congrArg (fun keys => { T with keys }) (funext hkeys)

/-- An equation that fails leaves the tables as they were. -/
theorem Represents.constrain? (h : T.Represents s) (hs : s.Layered) (l r : Ty) :
    (∃ s' T', s.constrain l r = .ok s' ∧ T.constrain? l r = some (none, T') ∧ T'.Represents s') ∨
      ∃ e, s.constrain l r = .error e ∧ T.constrain? l r = some (some e, T) := by
  have hfollows := h.unify?_follows hs l r
  rw [Tables.constrain?]
  generalize T.unify? l r = out, s.constrain l r = result at hfollows
  cases hfollows with
  | ok h' hvars => exact .inl ⟨_, _, rfl, rfl, h'⟩
  | error h' hvars =>
    refine .inr ⟨_, rfl, ?_⟩
    show some (some _, rollBack _ T) = _
    rw [h.rollBack_eq h' hvars]

theorem Represents.constrainAll? (h : T.Represents s) (hs : s.Layered) (es : List Equation) :
    ∃ T', T.constrainAll? es = some (T', (feed Solver.constrain s es).2) ∧
      T'.Represents (feed Solver.constrain s es).1 ∧ (feed Solver.constrain s es).1.Layered := by
  induction es generalizing T s with
  | nil => exact ⟨T, rfl, h, hs⟩
  | cons e es ih =>
    rw [Tables.constrainAll?, feed]
    rcases h.constrain? hs e.1 e.2 with ⟨s', T', hs', hT, h'⟩ | ⟨e, he, hT⟩
    · obtain ⟨T'', hT'', h''⟩ := ih h' (Solver.constrain_ok hs hs').1
      rw [hs', hT]
      exact ⟨T'', by simp only [Option.bind_eq_bind, Option.bind_some, hT'']; rfl, h''⟩
    · obtain ⟨T'', hT'', h''⟩ := ih h hs
      rw [he, hT]
      exact ⟨T'', by simp only [Option.bind_eq_bind, Option.bind_some, hT'']; rfl, h''⟩

/-! ## What always holds -/

/-- The value of one class mentions a variable of another. -/
def Mentions (T : Tables) (c d : Nat) : Prop :=
  ∃ u, T.values.lookup c = some u ∧ ∃ v ∈ u.leaves, ∃ k, T.keys v = some k ∧ T.classes.rep k = d

/-- The places where tables keep things agree: they number the same variables, values belong to
representatives, and no value leads back to its class. -/
structure Sound (T : Tables) : Prop where
  numbered : ∀ v k, T.keys v = some k ↔ T.vars[k]? = some v
  count : T.count = T.vars.length
  ends : ∀ m ∈ T.classes.merges, m.absorbed < T.count ∧ m.kept < T.count
  rep_lt : ∀ k < T.count, T.classes.rep k < T.count
  keyed : ∀ b ∈ T.values, b.1 < T.count ∧ T.classes.rep b.1 = b.1
  acyclic : ∀ c, ¬ Relation.TransGen T.Mentions c c

/-- The variable has no key, or it represents a class without a value. -/
def Unsolved (T : Tables) (v : TyVar) : Prop :=
  ∀ k, T.keys v = some k → T.classes.rep k = k ∧ T.values.lookup k = none

theorem Represents.sound (h : T.Represents s) (hs : s.Layered) : T.Sound := by
  have hkeyed : ∀ b ∈ T.values, T.classes.rep b.1 = b.1 := by
    intro b hb
    have hlt := h.keyed b hb
    have hrep := hs.rep_key (T.varAt b.1, b.2) (by rw [h.values]; exact List.mem_map_of_mem hb)
    rwa [h.rep_varAt hlt, h.varAt_inj (h.rep_lt hlt) hlt] at hrep
  have hleads : ∀ c d, T.Mentions c d → s.Leads (T.varAt c) (T.varAt d) := by
    rintro c d ⟨u, hu, v, hv, k, hk, rfl⟩
    obtain ⟨before, after, hvalues, -⟩ := List.lookup_eq_some_iff.mp hu
    have hc : (c, u) ∈ T.values := hvalues ▸ List.mem_append_right _ List.mem_cons_self
    obtain ⟨hlt, rfl⟩ := h.of_keys hk
    refine ⟨u, ?_, T.varAt k, hv, ?_⟩
    · rw [← h.value?_eq, value?, h.keys_varAt (h.keyed _ hc), Option.bind_some, hkeyed _ hc, hu]
    · rw [h.rep_varAt hlt, h.rep_varAt (h.rep_lt hlt)]
      exact congrArg T.varAt (T.classes.rep_rep k).symm
  refine ⟨h.numbered, h.count, h.ends, fun k => h.rep_lt,
    fun b hb => ⟨h.keyed b hb, hkeyed b hb⟩, fun c hc => ?_⟩
  have hback : Relation.TransGen (fun w v => s.Leads v w) (T.varAt c) (T.varAt c) :=
    Relation.transGen_swap.mp (Relation.TransGen.lift T.varAt hleads _ _ hc)
  exact hs.wellFounded.transGen.asymmetric _ _ hback hback

/-- What is left in a solution. -/
theorem Represents.unsolved (h : T.Represents s) (hs : s.Layered) (hv : v ∈ (s.zonk t).leaves) :
    T.Unsolved v := by
  intro k hk
  obtain ⟨w, hw, rfl⟩ := TyTerm.mem_leaves_map_iff.mp hv
  have hnone : s.value? (s.rep w) = none := by
    rw [Solver.value?_rep]
    exact Solver.leaves_expand hs hw
  obtain ⟨hlt, hkw⟩ := h.of_keys hk
  have hrep : T.classes.rep k = k := by
    rw [← h.varAt_inj (h.rep_lt hlt) hlt, ← h.rep_varAt hlt, hkw, Solver.rep_rep]
  rw [← h.value?_eq, value?, hk, Option.bind_some, hrep] at hnone
  exact ⟨hrep, hnone⟩

/-- Whatever equations have been added, with failures among them, the tables are sound and give the
answers of the solver.  No recursion over them runs for ever, solving twice is solving once, what is
left unsolved is told by its representative, and a failure changes nothing. -/
theorem sound_of_constraints (es : List Equation) :
    ∃ T, constrainAll? {} es = some (T, (feed Solver.constrain .empty es).2) ∧ T.Sound ∧
      (∀ t, ∃ u, T.zonk? t = some u ∧ u = (feed Solver.constrain .empty es).1.zonk t ∧
        T.zonk? u = some u ∧ ∀ v ∈ u.leaves, T.Unsolved v) ∧
      (∀ t, ∃ u, T.resolve? t = some u) ∧
      (∀ l r, ∃ out, (T.unify? l r).run = some out) ∧
      ∀ l r, ∃ e T', T.constrain? l r = some (e, T') ∧ (e ≠ none → T' = T) := by
  obtain ⟨T, hT, h, hs⟩ := empty_represents.constrainAll? Solver.empty_layered es
  generalize (feed Solver.constrain .empty es).1 = s at h hs
  refine ⟨T, hT, h.sound hs, fun t => ?_, fun t => ?_, fun l r => ?_, fun l r => ?_⟩
  · refine ⟨s.zonk t, h.zonk?_eq hs t, rfl, ?_, fun v hv => h.unsolved hs hv⟩
    rw [h.zonk?_eq hs, Solver.zonk_eq_bind hs, Solver.zonk_eq_bind hs,
      (Solver.image_idempotent hs).bind]
  · obtain ⟨u, hu, -⟩ := h.exists_resolve? hs t
    exact ⟨u, hu⟩
  · have hfollows := h.unify?_follows hs l r
    generalize T.unify? l r = out, s.constrain l r = result at hfollows
    cases hfollows with
    | ok h' hvars => exact ⟨_, rfl⟩
    | error h' hvars => exact ⟨_, rfl⟩
  · rcases h.constrain? hs l r with ⟨s', T', -, hT', -⟩ | ⟨e, -, hT'⟩
    · exact ⟨none, T', hT', fun hne => absurd rfl hne⟩
    · exact ⟨some e, T, hT', fun _ => rfl⟩

end Tables
end BlockGraph
