import BlockGraph.Expr.Printer
import BlockGraph.Proofs.Ty.Names
import BlockGraph.Proofs.Unification.Families

/-!
# What a printed expression shows

A `PlainExpr` is an expression without its tags, in which names and values look alike.
The annotations of an expression are printed one after another, and each adds the names of
its new variables to a table that all of them share.  The table only grows at its end, so
the names that it gives at last are those that every annotation was printed with
(`Expr.docWith_eq`): an expression is printed as its plain form under one naming of
variables.  Two plain forms that are equal under one-to-one namings differ by a renaming of
variables (`PlainExpr.exists_perm_of_map_eq`).
-/

namespace BlockGraph

/-- An expression without tags, in which names and values look alike.  Names are taken from `α`
and the variables of types from `ν`. -/
inductive PlainExpr (α ν : Type) where
  | name (a : α)
  | app (callee arg : PlainExpr α ν)
  | bind (a : α) (ascribed : TyTerm ν) (body : PlainExpr α ν)

namespace PlainExpr

variable {α β γ ν μ κ : Type}

def names : PlainExpr α ν → List α
  | name a => [a]
  | app callee arg => callee.names ++ arg.names
  | bind a _ body => a :: body.names

def types : PlainExpr α ν → List (TyTerm ν)
  | name _ => []
  | app callee arg => callee.types ++ arg.types
  | bind _ ascribed body => ascribed :: body.types

def leaves (e : PlainExpr α ν) : List ν :=
  e.types.flatMap TyTerm.leaves

def isName : PlainExpr α ν → Bool
  | name _ => true
  | _ => false

def isBinding : PlainExpr α ν → Bool
  | bind .. => true
  | _ => false

/-- The document of an expression, in the same shape as that of an expression with tags. -/
def toDoc : PlainExpr String String → Doc
  | name w => .text w
  | app callee arg =>
    .group (.nest 2
      (callee.toDoc.parensIf callee.isBinding ++ .line ++ arg.toDoc.parensIf (!arg.isName)))
  | bind w ascribed body =>
    .group (.text "let" ++ .text " " ++ .text w ++ .text " : " ++ ascribed.toDoc ++
      .text " in" ++ .line ++ body.toDoc)

def map (f : α → β) (g : ν → μ) : PlainExpr α ν → PlainExpr β μ
  | name a => name (f a)
  | app callee arg => app (callee.map f g) (arg.map f g)
  | bind a ascribed body => bind (f a) (ascribed.map g) (body.map f g)

@[simp]
theorem leaves_app (callee arg : PlainExpr α ν) :
    (app callee arg).leaves = callee.leaves ++ arg.leaves := by
  simp [leaves, types]

@[simp]
theorem leaves_bind (a : α) (ascribed : TyTerm ν) (body : PlainExpr α ν) :
    (bind a ascribed body).leaves = ascribed.leaves ++ body.leaves := by
  simp [leaves, types]

@[simp]
theorem isName_map (f : α → β) (g : ν → μ) (e : PlainExpr α ν) :
    (e.map f g).isName = e.isName := by
  cases e <;> rfl

@[simp]
theorem isBinding_map (f : α → β) (g : ν → μ) (e : PlainExpr α ν) :
    (e.map f g).isBinding = e.isBinding := by
  cases e <;> rfl

theorem names_map (f : α → β) (g : ν → μ) (e : PlainExpr α ν) :
    (e.map f g).names = e.names.map f := by
  induction e with
  | name a => rfl
  | app callee arg ihc iha => simp [map, names, ihc, iha]
  | bind a ascribed body ih => simp [map, names, ih]

theorem types_map (f : α → β) (g : ν → μ) (e : PlainExpr α ν) :
    (e.map f g).types = e.types.map (TyTerm.map g) := by
  induction e with
  | name a => rfl
  | app callee arg ihc iha => simp [map, types, ihc, iha]
  | bind a ascribed body ih => simp [map, types, ih]

theorem leaves_map (f : α → β) (g : ν → μ) (e : PlainExpr α ν) :
    (e.map f g).leaves = e.leaves.map g := by
  simp [leaves, types_map, List.flatMap_map, List.map_flatMap, TyTerm.leaves_map]

theorem map_map (f : α → β) (g : ν → μ) (f' : β → γ) (g' : μ → κ) (e : PlainExpr α ν) :
    (e.map f g).map f' g' = e.map (f' ∘ f) (g' ∘ g) := by
  induction e with
  | name a => rfl
  | app callee arg ihc iha => rw [map, map, map, ihc, iha]
  | bind a ascribed body ih => rw [map, map, map, ih, TyTerm.map_map, Function.comp_apply]

theorem map_id (e : PlainExpr α ν) : e.map id id = e := by
  induction e with
  | name a => rfl
  | app callee arg ihc iha => rw [map, ihc, iha]
  | bind a ascribed body ih => rw [map, ih]; exact congrArg (bind a · body) (TyTerm.bind_self _)

theorem map_congr {f f' : α → β} {g g' : ν → μ} {e : PlainExpr α ν}
    (hf : ∀ a ∈ e.names, f a = f' a) (hg : ∀ v ∈ e.leaves, g v = g' v) :
    e.map f g = e.map f' g' := by
  induction e with
  | name a => rw [map, map, hf a List.mem_cons_self]
  | app callee arg ihc iha =>
    rw [names, List.forall_mem_append] at hf
    rw [leaves_app, List.forall_mem_append] at hg
    rw [map, map, ihc hf.1 hg.1, iha hf.2 hg.2]
  | bind a ascribed body ih =>
    rw [names, List.forall_mem_cons] at hf
    rw [leaves_bind, List.forall_mem_append] at hg
    rw [map, map, hf.1, ih hf.2 hg.2, TyTerm.map_congr hg.1]

/-- Forms that are equal once their variables are named one to one differ by a renaming. -/
theorem exists_perm_of_map_eq {f : α → γ} {f' : β → γ} {g g' : TyVar → μ}
    {e : PlainExpr α TyVar} {e' : PlainExpr β TyVar}
    (hg : ∀ v ∈ e.leaves, ∀ w ∈ e.leaves, g v = g w → v = w)
    (hg' : ∀ v ∈ e'.leaves, ∀ w ∈ e'.leaves, g' v = g' w → v = w)
    (h : e.map f g = e'.map f' g') :
    ∃ π : Equiv.Perm TyVar, e.map f π = e'.map f' id := by
  have hinj : Set.InjOn g' {v | v ∈ e'.leaves} := fun v hv w hw => hg' v hv w hw
  let back : μ → TyVar := Function.invFunOn g' {v | v ∈ e'.leaves}
  have hback : ∀ v ∈ e'.leaves, back (g' v) = v := fun v hv => hinj.leftInvOn_invFunOn hv
  -- A variable goes to the one that has its name on the other side.
  have hleaves : e.leaves.map g = e'.leaves.map g' := by rw [← leaves_map f, h, leaves_map]
  have hforth : ∀ v ∈ e.leaves, ∃ w ∈ e'.leaves, g' w = g v := fun v hv =>
    List.mem_map.mp (hleaves ▸ List.mem_map_of_mem hv)
  have hone : ∀ v ∈ e.leaves, ∀ w ∈ e.leaves, back (g v) = back (g w) → v = w := by
    intro v hv w hw heq
    obtain ⟨v', hv', hgv⟩ := hforth v hv
    obtain ⟨w', hw', hgw⟩ := hforth w hw
    rw [← hgv, ← hgw, hback v' hv', hback w' hw'] at heq
    exact hg v hv w hw (by rw [← hgv, ← hgw, heq])
  obtain ⟨π, hπ, -⟩ := exists_perm_of_injective hone
  refine ⟨π, ?_⟩
  calc e.map f π = e.map (id ∘ f) (back ∘ g) := map_congr (fun _ _ => rfl) hπ
    _ = (e.map f g).map id back := (map_map _ _ _ _ e).symm
    _ = e'.map (id ∘ f') (back ∘ g') := by rw [h, map_map]
    _ = e'.map f' id := map_congr (fun _ _ => rfl) hback

end PlainExpr

/-! ## The shared table of names -/

namespace VarNames

variable {names final : VarNames} {t : Ty} {v w : TyVar}

theorem used_prefix_see (names : VarNames) (t : Ty) : names.used <+: (names.see t).used :=
  List.prefix_append _ _

theorem mem_used_see (h : v ∈ t.leaves) : v ∈ (names.see t).used := by
  by_cases hv : v ∈ names.used
  · exact List.mem_append_left _ hv
  · exact List.mem_append_right _ (List.mem_filter.mpr ⟨TyTerm.mem_vars.mpr h, by simpa using hv⟩)

theorem name_of_prefix (h : names.used <+: final.used) (hv : v ∈ names.used) :
    names.name v = final.name v := by
  rw [name, name, h.idxOf_eq_of_mem hv]

theorem name_inj (hv : v ∈ names.used) (h : names.name v = names.name w) : v = w :=
  (List.idxOf_inj hv).mp (nthName_injective h)

end VarNames

namespace Expr

variable {α : Type}

/-- What is left of an expression when tags are forgotten, and with them the difference between
names and values. -/
def plain : Expr α → PlainExpr α TyVar
  | var _ name => .name name
  | lit _ value => .name value
  | app _ callee arg => .app callee.plain arg.plain
  | bind _ name ascribed body => .bind name ascribed body.plain

@[simp]
theorem isName_plain (e : Expr α) : e.plain.isName = e.isAtom := by
  cases e <;> rfl

@[simp]
theorem isBinding_plain (e : Expr α) : e.plain.isBinding = e.isBinding := by
  cases e <;> rfl

theorem used_prefix_docWith (text : α → String) (e : Expr α) (names : VarNames) :
    names.used <+: (docWith text e names).2.used := by
  induction e generalizing names with
  | var _ name => exact List.prefix_refl _
  | lit _ value => exact List.prefix_refl _
  | app _ callee arg ihc iha => exact (iha names).trans (ihc _)
  | bind _ name ascribed body ih => exact (ih names).trans (VarNames.used_prefix_see _ ascribed)

theorem mem_used_docWith (text : α → String) {e : Expr α} (names : VarNames) {v : TyVar}
    (h : v ∈ e.plain.leaves) : v ∈ (docWith text e names).2.used := by
  induction e generalizing names with
  | var _ name => exact absurd h List.not_mem_nil
  | lit _ value => exact absurd h List.not_mem_nil
  | app _ callee arg ihc iha =>
    rw [plain, PlainExpr.leaves_app, List.mem_append] at h
    rcases h with h | h
    · exact ihc _ h
    · exact (used_prefix_docWith text callee _).subset (iha names h)
  | bind _ name ascribed body ih =>
    rw [plain, PlainExpr.leaves_bind, List.mem_append] at h
    rcases h with h | h
    · exact VarNames.mem_used_see h
    · exact (VarNames.used_prefix_see _ ascribed).subset (ih names h)

/-- An expression is printed as its plain form with the names of any later table. -/
theorem docWith_eq (text : α → String) (e : Expr α) (names : VarNames) {final : VarNames}
    (h : (docWith text e names).2.used <+: final.used) :
    (docWith text e names).1 = (e.plain.map text final.name).toDoc := by
  induction e generalizing names with
  | var _ name => rfl
  | lit _ value => rfl
  | app _ callee arg ihc iha =>
    have harg := iha names ((used_prefix_docWith text callee _).trans h)
    have hcallee := ihc (docWith text arg names).2 h
    simp only [docWith, plain, PlainExpr.map, PlainExpr.toDoc, PlainExpr.isBinding_map,
      PlainExpr.isName_map, isBinding_plain, isName_plain, harg, hcallee]
  | bind _ name ascribed body ih =>
    have hbody := ih names ((VarNames.used_prefix_see _ ascribed).trans h)
    have hascribed : (ascribed.named (docWith text body names).2).1 = ascribed.map final.name :=
      TyTerm.map_congr fun v hv => VarNames.name_of_prefix h (VarNames.mem_used_see hv)
    simp only [docWith, plain, PlainExpr.map, PlainExpr.toDoc, hbody, hascribed]

/-- The table of variable names after an expression has been printed on its own. -/
def lettering (text : α → String) (e : Expr α) : VarNames :=
  (docWith text e .none).2

end Expr

end BlockGraph
