import BlockGraph.Proofs.Unification.Composition

/-!
# Following bindings to the end

`Subst.apply` replaces every variable once, and `Subst.solveAll` works on equations
that the substitution has been applied to.  The same can be asked of recursions that
rely on nothing of the kind.  `chase?` replaces a variable by what it is bound to and
goes on there, until it comes to variables that are not bound.  `unifyInto?` applies
the substitution, as far as it has grown, to both sides of every equation that it
comes to, and goes on with the parts of what this gives.

Neither recursion is on a part of what it was called with, and a recursion that never
ends has no result.  On a normal substitution both end.  A binding has no bound
variable, so chasing stops after one replacement (`chase?_eq`).  An equation either makes one more
variable bound or is replaced by smaller ones over variables that are not bound, which is the
measure of `Subst.solveAll` (`unifyEach?_eq`).

A unification that fails has bound variables before.  So it works on a copy, which is dropped with
them (`unifyInPlace?`), and what any sequence of calls leaves behind is normal.
-/

namespace BlockGraph

theorem mapM_eq_some_map {α β : Type} {f : α → Option β} {g : α → β} {as : List α}
    (h : ∀ a ∈ as, f a = some (g a)) : as.mapM f = some (as.map g) := by
  induction as with
  | nil => rfl
  | cons a as ih =>
    rw [List.mapM_cons, h a List.mem_cons_self, ih fun b hb => h b (List.mem_cons_of_mem a hb)]
    rfl

namespace TyTerm

variable {ν μ : Type}

/-- A recursion over terms that goes through literals and arrows part by part.  Only at a variable
it may do as it likes. -/
structure Descends (f : TyTerm ν → Option (TyTerm μ)) : Prop where
  lit : ∀ name args, f (.lit name args) = do return .lit name (← args.mapM f)
  fn : ∀ domain codomain, f (.fn domain codomain) = do return .fn (← f domain) (← f codomain)

/-- Such a recursion ends if it ends at the variables, and then it replaces them. -/
theorem Descends.eq_bind {f : TyTerm ν → Option (TyTerm μ)} (hf : Descends f) {g : ν → TyTerm μ}
    {t : TyTerm ν} (h : ∀ v ∈ t.leaves, f (.var v) = some (g v)) : f t = some (t.bind g) := by
  induction t with
  | var v => exact h v (List.mem_singleton_self v)
  | lit name args ih =>
    have hargs : args.mapM f = some (args.map (bind g)) := mapM_eq_some_map fun t ht =>
      ih t ht fun v hv => h v (by rw [leaves_lit]; exact List.mem_flatMap.mpr ⟨t, ht, hv⟩)
    rw [hf.lit, hargs, bind_lit]
    rfl
  | fn domain codomain ihd ihc =>
    rw [hf.fn, ihd fun v hv => h v (List.mem_append_left _ hv),
      ihc fun v hv => h v (List.mem_append_right _ hv), bind_fn]
    rfl

end TyTerm

namespace Equation

variable {f : TyVar → Ty} {es rest : List Equation} {l r : Ty}

theorem bindAll_bindAll (f g : TyVar → Ty) (es : List Equation) :
    bindAll g (bindAll f es) = bindAll (fun v => (f v).bind g) es := by
  rw [bindAll, bindAll, bindAll, List.map_map]
  refine List.map_congr_left fun e _ => ?_
  rw [Function.comp_apply, TyTerm.bind_bind, TyTerm.bind_bind]

theorem bindAll_eq_self (h : ∀ w ∈ leaves es, f w = .var w) : bindAll f es = es := by
  rw [bindAll]
  conv_rhs => rw [← List.map_id es]
  refine List.map_congr_left fun e he => ?_
  have hmem : ∀ w ∈ e.1.leaves ++ e.2.leaves, f w = .var w := fun w hw =>
    h w (List.mem_flatMap.mpr ⟨e, he, hw⟩)
  rw [TyTerm.bind_eq_self_iff.mpr fun w hw => hmem w (List.mem_append_left _ hw),
    TyTerm.bind_eq_self_iff.mpr fun w hw => hmem w (List.mem_append_right _ hw)]
  rfl

theorem exists_of_bindAll_eq_cons (h : bindAll f es = (l, r) :: rest) :
    ∃ l₀ r₀ rest₀, es = (l₀, r₀) :: rest₀ ∧ l = l₀.bind f ∧ r = r₀.bind f ∧
      rest = bindAll f rest₀ := by
  obtain ⟨e, es, rfl, he, hrest⟩ := List.map_eq_cons_iff.mp h
  obtain ⟨rfl, rfl⟩ := Prod.mk.inj he
  exact ⟨e.1, e.2, es, rfl, rfl, rfl, hrest.symm⟩

end Equation

namespace Subst

variable {σ : Subst} {v w : TyVar} {t u l r : Ty} {es rest : List Equation}

/-! ## The recursions -/

/-- The type with every bound variable replaced by what it is bound to, and so on in what has come
in its place. -/
def chase? (σ : Subst) (t : Ty) : Option Ty :=
  if σ.bindings.isEmpty then some t
  else
    match t with
    | .var v =>
      match σ.get? v with
      | some u => σ |>.chase? u
      | none => some (.var v)
    | .lit name args => do return .lit name (← args.mapM (σ |>.chase? ·))
    | .fn domain codomain => do return .fn (← σ |>.chase? domain) (← σ |>.chase? codomain)
partial_fixpoint

/-- Binds a variable that is not bound yet, if it passes the occurs check, and chases it in the
range.  A failure comes with the substitution as it leaves it. -/
def insert? (σ : Subst) (v : TyVar) (t : Ty) : Option (Except (TypeError × Subst) Subst) :=
  if t.occurs v then some (.error (.occurs v t, σ))
  else do
    let bindings ← σ.bindings.mapM fun b => do return (b.1, ← chase? ⟨[(v, t)]⟩ b.2)
    return .ok ⟨(v, t) :: bindings⟩

/-- Makes two types equal, after the substitution has been applied to them.  Each of the equations
between parts is met on top of what those before it have led to, and what they have led to is still
there when it fails. -/
def unifyInto? (σ : Subst) (l r : Ty) : ExceptT (TypeError × Subst) Option Subst := do
  let l ← σ.chase? l
  let r ← σ.chase? r
  match compareHeads l r with
  | .variables v w => if v = w then return σ else σ.insert? v (.var w)
  | .variable v t => σ.insert? v t
  | .parts equations => equations.foldlM (fun σ e => σ |>.unifyInto? e.1 e.2) σ
  | .clash kind => throw (.mismatch kind l r, σ)
partial_fixpoint

def unifyEach? (σ : Subst) (es : List Equation) : ExceptT (TypeError × Subst) Option Subst :=
  es.foldlM (fun σ e => σ.unifyInto? e.1 e.2) σ

/-- Unifies on a copy.  The copy takes the place of the substitution, or is dropped with all that
was bound in it before a failure. -/
def unifyInPlace? (σ : Subst) (l r : Ty) : Option (Option TypeError × Subst) := do
  match ← (σ.unifyInto? l r).run with
  | .ok copy => return (none, copy)
  | .error (e, _) => return (some e, σ)

/-- Adds bindings one after another, up to one that fails. -/
def bindEach? (σ : Subst) : List (TyVar × Ty) → Option (Option TypeError × Subst)
  | [] => some (none, σ)
  | (v, t) :: rest => do
    match ← σ.unifyInPlace? (.var v) t with
    | (none, σ) => σ.bindEach? rest
    | (some e, σ) => return (some e, σ)

/-! ## Chasing -/

theorem chase?_descends (σ : Subst) : TyTerm.Descends σ.chase? := by
  by_cases hempty : σ.bindings.isEmpty
  · have hsome : ∀ t, σ.chase? t = some t := fun t => by
      rw [chase?.eq_def, if_pos hempty]
    refine ⟨fun name args => ?_, fun domain codomain => ?_⟩
    · rw [hsome, mapM_eq_some_map (g := id) fun t _ => hsome t, List.map_id]
      rfl
    · rw [hsome, hsome, hsome]
      rfl
  · refine ⟨fun name args => ?_, fun domain codomain => ?_⟩
    · rw [chase?, if_neg hempty]
    · rw [chase?, if_neg hempty]

theorem chase?_of_unbound (h : v ∉ σ.domain) : σ.chase? (.var v) = some (.var v) := by
  rw [chase?, get?_eq_none_iff.mpr h]
  exact ite_self _

theorem bindings_ne_of_bound (h : σ.get? v = some u) : ¬ σ.bindings.isEmpty := by
  intro hempty
  rw [get?, List.isEmpty_iff.mp hempty] at h
  cases h

theorem chase?_of_bound (h : σ.get? v = some u) : σ.chase? (.var v) = σ.chase? u := by
  rw [chase?, if_neg (bindings_ne_of_bound h), h]

theorem chase?_eq (h : σ.Normal) (t : Ty) : σ.chase? t = some (σ.apply t) := by
  refine σ.chase?_descends.eq_bind fun v _ => ?_
  cases hv : σ.get? v with
  | none => rw [chase?_of_unbound (get?_eq_none_iff.mp hv), Subst.image, hv, Option.getD_none]
  | some u =>
    have hu : σ.chase? u = some (u.bind .var) := σ.chase?_descends.eq_bind fun w hw =>
      chase?_of_unbound (h.range (v, u) (mem_bindings_of_get? hv) w hw)
    rw [chase?_of_bound hv, hu, TyTerm.bind_self, Subst.image, hv, Option.getD_some]

/-! ## Binding -/

theorem singleton_image (v : TyVar) (t : Ty) : image ⟨[(v, t)]⟩ = replacing v t := by
  funext w
  rw [image, get?, List.lookup_cons, replacing]
  by_cases hw : w = v
  · simp [hw]
  · simp [hw, beq_false_of_ne hw]

theorem singleton_normal (h : v ∉ t.leaves) : Normal ⟨[(v, t)]⟩ := by
  refine ⟨List.nodup_singleton v, fun b hb w hw hmem => ?_⟩
  rw [List.mem_singleton.mp hb] at hw
  rw [List.mem_singleton.mp hmem] at hw
  exact h hw

theorem insert?_eq (σ : Subst) (v : TyVar) (t : Ty) :
    σ.insert? v t = some (if t.occurs v then .error (.occurs v t, σ) else .ok (σ.insert v t)) := by
  rw [insert?]
  split
  · rfl
  next hocc =>
    have hvt : v ∉ t.leaves := fun hmem => hocc (TyTerm.occurs_iff.mpr hmem)
    have hrange :
        ∀ b ∈ σ.bindings, (do return (b.1, ← chase? ⟨[(v, t)]⟩ b.2) : Option (TyVar × Ty)) =
        some (b.1, b.2.bind (replacing v t)) := fun b _ => by
      rw [chase?_eq (singleton_normal hvt), apply, singleton_image]
      rfl
    rw [mapM_eq_some_map hrange]
    rfl

/-! ## Unifying -/

theorem unifyInto?_eq (h : σ.Normal) (l r : Ty) :
    σ.unifyInto? l r =
      match compareHeads (l.bind σ.image) (r.bind σ.image) with
      | .variables v w => if v = w then return σ else σ.insert? v (.var w)
      | .variable v t => σ.insert? v t
      | .parts equations => σ.unifyEach? equations
      | .clash kind => throw (.mismatch kind (l.bind σ.image) (r.bind σ.image), σ) := by
  rw [unifyInto?, chase?_eq h, chase?_eq h]
  rfl

theorem unifyEach?_cons (h : σ.Normal) (l r : Ty) (rest : List Equation) :
    σ.unifyEach? ((l, r) :: rest) =
      match compareHeads (l.bind σ.image) (r.bind σ.image) with
      | .variables v w =>
        if v = w then σ.unifyEach? rest else (σ.insert v (.var w)).unifyEach? rest
      | .variable v t =>
        if t.occurs v then throw (.occurs v t, σ) else (σ.insert v t).unifyEach? rest
      | .parts equations => σ.unifyEach? (equations ++ rest)
      | .clash kind => throw (.mismatch kind (l.bind σ.image) (r.bind σ.image), σ) := by
  rw [unifyEach?, List.foldlM_cons, unifyInto?_eq h]
  cases hc : compareHeads (l.bind σ.image) (r.bind σ.image) with
  | «variables» v w =>
    by_cases hvw : v = w
    · simp only [hvw, if_true]
      rfl
    · have hocc : (TyTerm.var w : Ty).occurs v = false := by simp [TyTerm.occurs, hvw]
      simp only [hvw, if_false, insert?_eq, hocc, Bool.false_eq_true]
      rfl
  | «variable» v t =>
    by_cases hocc : t.occurs v
    · simp only [insert?_eq, hocc, if_true]
      rfl
    · simp only [insert?_eq, hocc, Bool.false_eq_true, if_false]
      rfl
  | parts equations => exact List.foldlM_append.symm
  | clash kind => rfl

theorem bindAll_image_insert (hv : σ.image v = .var v) (t : Ty) (es : List Equation) :
    Equation.bindAll (replacing v t) (Equation.bindAll σ.image es) =
      Equation.bindAll (σ.insert v t).image es := by
  rw [image_insert hv, Equation.bindAll_bindAll]
  rfl

/-- Unifying ends, since it does what solving does on the equations that the substitution has been
applied to. -/
theorem unifyEach?_eq (hσ : σ.Normal) (es : List Equation) :
    (σ.unifyEach? es).run.map (·.mapError Prod.fst) =
      some (σ.solveAll (Equation.bindAll σ.image es)) := by
  generalize happlied : Equation.bindAll σ.image es = applied
  have hunbound : ∀ w ∈ Equation.leaves applied, w ∉ σ.domain := by
    intro w hw
    rw [← happlied] at hw
    obtain ⟨x, _, hw⟩ := Equation.mem_leaves_bindAll hw
    exact hσ.image hw
  induction σ, applied using solveAll.induct generalizing es with
  | case1 σ =>
    rw [List.map_eq_nil_iff.mp happlied, solveAll]
    rfl
  | case2 σ l r rest w hc ih =>
    obtain ⟨l, r, rest, rfl, rfl, rfl, rfl⟩ := Equation.exists_of_bindAll_eq_cons happlied
    rw [unifyEach?_cons hσ, solveAll_cons, hc]
    simp only [if_true]
    exact ih hσ rest rfl fun x hx => hunbound x (by simp [hx])
  | case3 σ l r rest v w hc hvw ih =>
    obtain ⟨l, r, rest, rfl, rfl, rfl, rfl⟩ := Equation.exists_of_bindAll_eq_cons happlied
    rw [unifyEach?_cons hσ, solveAll_cons, hc]
    simp only [hvw, if_false]
    obtain ⟨hl, hr⟩ := compareHeads_variables hc
    have hv : v ∉ σ.domain := hunbound v (by simp [hl])
    have hw : ∀ x ∈ (TyTerm.var w).leaves, x ∉ σ.domain := fun x hx => hunbound x (by simp_all)
    have hvw' : v ∉ (TyTerm.var w).leaves := fun hmem => hvw (List.mem_singleton.mp hmem)
    refine ih (hσ.insert hv hw hvw') rest (bindAll_image_insert (image_of_unbound hv) _ _).symm ?_
    exact unbound_bindAll (fun x hx => hunbound x (by simp [hx])) hw hvw'
  | case4 σ l r rest v t hc hocc =>
    obtain ⟨l, r, rest, rfl, rfl, rfl, rfl⟩ := Equation.exists_of_bindAll_eq_cons happlied
    rw [unifyEach?_cons hσ, solveAll_cons, hc]
    simp only [hocc, if_true]
    rfl
  | case5 σ l r rest v t hc hocc ih =>
    obtain ⟨l, r, rest, rfl, rfl, rfl, rfl⟩ := Equation.exists_of_bindAll_eq_cons happlied
    rw [unifyEach?_cons hσ, solveAll_cons, hc]
    simp only [hocc, Bool.false_eq_true, if_false]
    have hvt : v ∉ t.leaves := fun hmem => hocc (TyTerm.occurs_iff.mpr hmem)
    have hv : v ∉ σ.domain := hunbound v (leaves_of_variable hc (.inl rfl))
    have ht : ∀ w ∈ t.leaves, w ∉ σ.domain := fun w hw =>
      hunbound w (leaves_of_variable hc (.inr hw))
    refine ih (hσ.insert hv ht hvt) rest (bindAll_image_insert (image_of_unbound hv) _ _).symm ?_
    exact unbound_bindAll (fun x hx => hunbound x (by simp [hx])) ht hvt
  | case6 σ l r rest equations hc ih =>
    obtain ⟨l, r, rest, rfl, rfl, rfl, rfl⟩ := Equation.exists_of_bindAll_eq_cons happlied
    rw [unifyEach?_cons hσ, solveAll_cons, hc]
    -- The parts stand as they are: what the substitution gave has no bound variable.
    refine ih hσ _ ?_ fun x hx => hunbound x (leaves_of_parts hc hx)
    have hparts : Equation.bindAll σ.image equations = equations := by
      refine Equation.bindAll_eq_self fun x hx => image_of_unbound (hunbound x ?_)
      exact leaves_of_parts hc (by simp [hx])
    rw [Equation.bindAll, List.map_append]
    exact congrArg (· ++ _) hparts
  | case7 σ l r rest kind hc =>
    obtain ⟨l, r, rest, rfl, rfl, rfl, rfl⟩ := Equation.exists_of_bindAll_eq_cons happlied
    rw [unifyEach?_cons hσ, solveAll_cons, hc]
    rfl

theorem unifyInto?_run (h : σ.Normal) (l r : Ty) :
    (σ.unifyInto? l r).run.map (·.mapError Prod.fst) = some (σ.unify l r) := by
  have hone : σ.unifyEach? [(l, r)] = σ.unifyInto? l r := bind_pure _
  rw [← hone, unifyEach?_eq h]
  rfl

/-- The error and the substitution after work on a copy of `σ`. -/
def settled (σ : Subst) : Except TypeError Subst → Option TypeError × Subst
  | .ok copy => (none, copy)
  | .error e => (some e, σ)

theorem unifyInPlace?_eq (h : σ.Normal) (l r : Ty) :
    σ.unifyInPlace? l r = some (σ.settled (σ.unify l r)) := by
  obtain ⟨out, hrun, hout⟩ := Option.map_eq_some_iff.mp (unifyInto?_run h l r)
  rw [unifyInPlace?, hrun, ← hout]
  cases out <;> rfl

theorem bindEach?_eq (h : σ.Normal) (bindings : List (TyVar × Ty)) :
    ∃ τ : Subst, σ.bindEach? bindings = some (τ.settled (σ.bindAll bindings)) := by
  induction bindings generalizing σ with
  | nil => exact ⟨σ, rfl⟩
  | cons b rest ih =>
    rw [bindEach?, unifyInPlace?_eq h, Subst.bindAll, Subst.bind]
    cases hb : σ.unify (.var b.1) b.2 with
    | ok copy => exact ih (h.unify hb)
    | error e => exact ⟨σ, rfl⟩

/-- Chasing variables and unifying with whatever the substitution has grown to come to an end on all
types, for every substitution that calls lead to.  What they give is what one replacement gives, and
solving equations that the substitution has been applied to. -/
theorem recursions_end (h : σ.Obtained) :
    (∀ t, σ.chase? t = some (σ.apply t)) ∧
    ∀ l r, (σ.unifyInto? l r).run.map (·.mapError Prod.fst) = some (σ.unify l r) :=
  ⟨chase?_eq h.normal, unifyInto?_run h.normal⟩

/-- The binding of `1` has been carried out in the one of `0`, and `2` is left free.  It cannot
become equal to what `0` stands for. -/
theorem recursions_end_pair :
    ∃ σ : Subst, σ.Obtained ∧
      σ.bindings = [(1, .lit "List" [.var 3]), (0, .lit "Pair" [.lit "List" [.var 3], .var 2])] ∧
      σ.chase? (.fn (.var 0) (.var 2)) =
        some (.fn (.lit "Pair" [.lit "List" [.var 3], .var 2]) (.var 2)) ∧
      (σ.unifyInto? (.var 2) (.var 0)).run.map (·.mapError Prod.fst) =
        some (.error (.occurs 2 (.lit "Pair" [.lit "List" [.var 3], .var 2]))) := by
  have hpair : Subst.Obtained ⟨[(0, .lit "Pair" [.var 1, .var 2])]⟩ :=
    .singleton (v := 0) (t := .lit "Pair" [.var 1, .var 2]) (by
      simp [singleton, Subst.bind, Subst.unify, solveAll_cons, solveAll, compareHeads, apply, image,
        get?, TyTerm.occurs, insert, Equation.bindAll, empty])
  have hlist : Subst.Obtained
      ⟨[(1, .lit "List" [.var 3]), (0, .lit "Pair" [.lit "List" [.var 3], .var 2])]⟩ :=
    .unify (l := .var 1) (r := .lit "List" [.var 3]) hpair (by
      simp [Subst.unify, solveAll_cons, solveAll, compareHeads, apply, image, get?,
        List.lookup_cons, TyTerm.occurs, insert, Equation.bindAll, replacing])
  obtain ⟨hchase, hunify⟩ := recursions_end hlist
  refine ⟨_, hlist, rfl, ?_, ?_⟩
  · rw [hchase]
    rfl
  · rw [hunify]
    simp [Subst.unify, solveAll_cons, compareHeads, apply, image, get?, List.lookup_cons,
      TyTerm.occurs]

/-! ## Every sequence of calls -/

abbrev Shelf := Nat → Subst

/-- An order in which bindings are gone through. -/
structure Rearrangement where
  order : List (TyVar × Ty) → List (TyVar × Ty)
  perm : ∀ bindings, (order bindings).Perm bindings

/-- A call that is to give the substitution with the number `target`. -/
inductive Call where
  | singleton (target : Nat) (v : TyVar) (t : Ty)
  | bind (target : Nat) (v : TyVar) (t : Ty)
  | unify (target : Nat) (l r : Ty)
  /-- The bindings of the substitution `right` are gone through in any order. -/
  | compose (target left right : Nat) (rearrangement : Rearrangement)

namespace Call

variable {shelf : Shelf}

def target : Call → Nat
  | singleton target _ _ => target
  | bind target _ _ => target
  | unify target _ _ => target
  | compose target _ _ _ => target

def result (shelf : Shelf) : Call → Except TypeError Subst
  | singleton _ v t => Subst.singleton v t
  | bind target v t => (shelf target).bind v t
  | unify target l r => (shelf target).unify l r
  | compose _ left right rearrangement =>
    (shelf left).compose ⟨rearrangement.order (shelf right).bindings⟩

/-- What a call leaves behind.  A call that fails has nothing to put in the place of its target. -/
def run (shelf : Shelf) (c : Call) : Shelf :=
  match c.result shelf with
  | .ok σ => Function.update shelf c.target σ
  | .error _ => shelf

/-- The same call with its steps.  Binding and unifying are done in place, and the other calls put
what they have made in the place of the target at the end. -/
def run? (shelf : Shelf) : Call → Option (Option TypeError × Shelf)
  | singleton target v t => do
    let (e, σ) ← empty.unifyInPlace? (.var v) t
    return (e, if e.isNone then Function.update shelf target σ else shelf)
  | bind target v t => do
    let (e, σ) ← (shelf target).unifyInPlace? (.var v) t
    return (e, Function.update shelf target σ)
  | unify target l r => do
    let (e, σ) ← (shelf target).unifyInPlace? l r
    return (e, Function.update shelf target σ)
  | compose target left right rearrangement => do
    let (e, σ) ← (shelf left).bindEach? (rearrangement.order (shelf right).bindings)
    return (e, if e.isNone then Function.update shelf target σ else shelf)

theorem result_normal {c : Call} (h : ∀ i, (shelf i).Normal) (hc : c.result shelf = .ok σ) :
    σ.Normal := by
  cases c with
  | singleton target v t => exact Normal.empty.unify hc
  | bind target v t => exact (h target).unify hc
  | unify target l r => exact (h target).unify hc
  | compose target left right rearrangement => exact (h left).bindAll hc

theorem run_normal (h : ∀ i, (shelf i).Normal) (c : Call) (i : Nat) : (c.run shelf i).Normal := by
  rw [run]
  cases hc : c.result shelf with
  | error e => exact h i
  | ok σ =>
    by_cases hi : i = c.target
    · simp only [hi, Function.update_self]
      exact result_normal h hc
    · simp only [Function.update_of_ne hi]
      exact h i

/-- The steps of a call lead to its result, and a failed call has put nothing in its place. -/
theorem run?_eq (h : ∀ i, (shelf i).Normal) (c : Call) :
    c.run? shelf = some (((shelf c.target).settled (c.result shelf)).1, c.run shelf) := by
  rw [run]
  cases c with
  | singleton target v t =>
    rw [run?, unifyInPlace?_eq Normal.empty, result, Subst.singleton, Subst.bind]
    cases empty.unify (.var v) t <;> rfl
  | bind target v t =>
    rw [run?, unifyInPlace?_eq (h target), result, Subst.bind]
    cases (shelf target).unify (.var v) t with
    | ok copy => rfl
    | error e => exact congrArg (fun shelf => some (some e, shelf)) (Function.update_eq_self _ _)
  | unify target l r =>
    rw [run?, unifyInPlace?_eq (h target), result]
    cases (shelf target).unify l r with
    | ok copy => rfl
    | error e => exact congrArg (fun shelf => some (some e, shelf)) (Function.update_eq_self _ _)
  | compose target left right rearrangement =>
    obtain ⟨τ, hτ⟩ := bindEach?_eq (h left) (rearrangement.order (shelf right).bindings)
    rw [run?, hτ, result, Subst.compose]
    cases (shelf left).bindAll (rearrangement.order (shelf right).bindings) <;> rfl

/-- The substitutions after calls, failed ones included, which are all empty at first. -/
def runAll (calls : List Call) : Shelf :=
  calls.foldl run fun _ => .empty

def runAll? (calls : List Call) : Option Shelf :=
  calls.foldlM (fun shelf c => do return (← c.run? shelf).2) fun _ => .empty

theorem runAll_normal (calls : List Call) (i : Nat) : (runAll calls i).Normal := by
  suffices h : ∀ shelf : Shelf, (∀ i, (shelf i).Normal) → ∀ i, (calls.foldl run shelf i).Normal from
    h _ (fun _ => Normal.empty) i
  induction calls with
  | nil => exact fun shelf h => h
  | cons c rest ih => exact fun shelf h => ih (c.run shelf) (run_normal h c)

theorem runAll?_eq (calls : List Call) : runAll? calls = some (runAll calls) := by
  suffices h : ∀ shelf : Shelf, (∀ i, (shelf i).Normal) →
      calls.foldlM (fun shelf c => do return (← c.run? shelf).2) shelf =
        some (calls.foldl run shelf) from h _ fun _ => Normal.empty
  induction calls with
  | nil => exact fun shelf _ => rfl
  | cons c rest ih =>
    intro shelf h
    rw [List.foldlM_cons, run?_eq h]
    exact ih (c.run shelf) (run_normal h c)

end Call

/-- Whatever is asked of a number of substitutions, none of them ever maps to a variable that it
binds, so its application is complete and idempotent.  A call that fails drops the copy that it has
worked on, so it leaves all of them as they were. -/
theorem dereferenced_of_calls (calls : List Call) :
    Call.runAll? calls = some (Call.runAll calls) ∧
    (∀ i, (Call.runAll calls i).Normal ∧
      ∀ t : Ty,
        (∀ v ∈ ((Call.runAll calls i).apply t).leaves, (Call.runAll calls i).get? v = none) ∧
        (Call.runAll calls i).apply ((Call.runAll calls i).apply t) =
          (Call.runAll calls i).apply t) ∧
      ∀ c e, c.result (Call.runAll calls) = .error e →
        c.run? (Call.runAll calls) = some (some e, Call.runAll calls) ∧
        Call.runAll (calls ++ [c]) = Call.runAll calls := by
  refine ⟨Call.runAll?_eq calls, fun i => ?_, fun c e hc => ?_⟩
  · have h := Call.runAll_normal calls i
    exact ⟨h, fun t => ⟨fun v hv => get?_eq_none_iff.mpr (h.apply hv), h.apply_apply t⟩⟩
  · have hrun : c.run (Call.runAll calls) = Call.runAll calls := by rw [Call.run, hc]
    refine ⟨?_, ?_⟩
    · rw [Call.run?_eq (Call.runAll_normal calls), hrun, hc]
      rfl
    · rw [Call.runAll, List.foldl_append]
      exact hrun

end Subst
end BlockGraph
