import BlockGraph.Proofs.Workspace.Principal

/-!
# Refused edits

An edit that is refused hands on a workspace too.  An edit is atomic if this is the
workspace it was given.  Two edits are not.  A type that is to get more variants keeps
those that were added before a free name could not be found.  A type that gets another
name has it in the registry before its nodes and sockets are looked for; in a
well-formed graph all of them are found.
-/

namespace BlockGraph

/-- An edit that is refused changes nothing. -/
def Atomic {σ α : Type} (edit : EStateM EditError σ α) : Prop :=
  ∀ s e s', edit s = .error e s' → s' = s

namespace Registry

variable {name : String}

theorem editType_atomic {α : Type} {f : UserType → Edit α} (hf : ∀ t, Atomic (f t)) :
    Atomic (editType name f) := by
  intro r e r' h
  rw [editType] at h
  split at h
  · cases h
    rfl
  · exact hf _ r e r' h

theorem defineFunction_atomic (ty : Ty) : Atomic (defineFunction name ty) := by
  intro r e r' h
  rw [defineFunction] at h
  split at h
  · cases h
  · cases h
    rfl

theorem defineType_atomic (candidate : String) (variants : List Variant) :
    Atomic (defineType candidate variants) := by
  intro r e r' h
  unfold defineType at h
  split at h
  · cases h
    rfl
  split at h
  · cases h
    rfl
  · cases h

theorem renameType_atomic (old candidate : String) : Atomic (renameType old candidate) := by
  refine editType_atomic fun t r e r' h => ?_
  split at h
  · cases h
  split at h
  · cases h
    rfl
  · cases h

theorem renameCtor_atomic (old candidate : String) : Atomic (renameCtor old candidate) := by
  intro r e r' h
  rw [renameCtor] at h
  split at h
  · cases h
    rfl
  split at h
  · cases h
  split at h
  · cases h
    rfl
  · cases h

theorem deleteType_atomic (name : String) : Atomic (deleteType name) :=
  editType_atomic fun t r e r' h => by cases h

theorem editVariant_atomic (variant : Nat) (f : Variant → Except EditError Variant) :
    Atomic (editVariant name variant f) := by
  refine editType_atomic fun t r e r' h => ?_
  split at h
  · cases h
    rfl
  split at h
  · cases h
    rfl
  · cases h

end Registry

namespace Workspace

variable {ws ws' : Workspace} {e : EditError} {name : String} {α : Type}

theorem onRegistry_error {edit : Registry.Edit α} (hedit : Atomic edit)
    (h : onRegistry edit ws = .error e ws') : ws' = ws := by
  rw [onRegistry] at h
  split at h
  · cases h
  · next registry hrefused =>
    cases h
    rw [hedit _ _ _ hrefused]

/-! ## Nodes and links -/

theorem removeNode_atomic (n : NodeId) : Atomic (removeNode n) := by
  intro ws e ws' h
  rw [removeNode] at h
  split at h
  · cases h
    rfl
  · cases h

theorem setArity_atomic (n : NodeId) (items : Nat) : Atomic (setArity n items) := by
  intro ws e ws' h
  rw [setArity] at h
  split at h
  · cases h
    rfl
  split at h
  · cases h
  · cases h
    rfl

theorem renameBinder_atomic (n : NodeId) (branch field : Nat) (name : String) :
    Atomic (renameBinder n branch field name) := by
  intro ws e ws' h
  rw [renameBinder] at h
  split at h
  · cases h
    rfl
  split at h
  · split at h
    · cases h
      rfl
    split at h
    · cases h
      rfl
    split at h
    · cases h
      rfl
    split at h
    · cases h
      rfl
    · cases h
  · cases h
    rfl

theorem connect_atomic (output input : SocketId) : Atomic (connect output input) := by
  intro ws e ws' h
  simp only [connect] at h
  split at h
  · cases h
    rfl
  split at h
  · cases h
    rfl
  · cases h

theorem disconnect_atomic (output input : SocketId) : Atomic (disconnect output input) := by
  intro ws e ws' h
  rw [disconnect] at h
  split at h
  · cases h
    rfl
  · cases h

theorem attach_atomic (output input : SocketId) : Atomic (attach output input) := by
  intro ws e ws' h
  rw [attach] at h
  split at h
  · cases h
    rfl
  · cases h

/-! ## Definitions -/

theorem defineType_atomic (candidate : String) (variants : List Variant) :
    Atomic (defineType candidate variants) := by
  intro ws e ws' h
  unfold defineType at h
  split at h
  · next hrun =>
    cases h
    exact onRegistry_error (Registry.defineType_atomic _ _) hrun
  · cases h

theorem defineFunction_atomic (name : String) (ty : Ty) : Atomic (defineFunction name ty) := by
  intro ws e ws' h
  simp only [defineFunction] at h
  split at h
  · next hrun =>
    cases h
    exact onRegistry_error (Registry.defineFunction_atomic _) hrun
  · cases h

theorem renameType_error (hgraph : ws.graph.WellFormed) {old candidate : String}
    (h : renameType old candidate ws = .error e ws') : ws' = ws := by
  unfold renameType at h
  split at h
  · next hrun =>
    cases h
    exact onRegistry_error (Registry.renameType_atomic _ _) hrun
  next hrun =>
  obtain ⟨registry, _, rfl⟩ := onRegistry_ok hrun
  split at h
  · cases h
  · rw [Graph.renameType_eq hgraph] at h
    cases h

theorem renameCtor_atomic (old candidate : String) : Atomic (renameCtor old candidate) := by
  intro ws e ws' h
  unfold renameCtor at h
  split at h
  · next hrun =>
    cases h
    exact onRegistry_error (Registry.renameCtor_atomic _ _) hrun
  · cases h

theorem deleteType_atomic (name : String) : Atomic (deleteType name) := by
  intro ws e ws' h
  simp only [deleteType] at h
  split at h
  · next hrun =>
    cases h
    exact onRegistry_error (Registry.deleteType_atomic _) hrun
  · cases h

theorem editType_error {edit : Registry.Edit α} (hedit : Atomic edit) {supply : Supply}
    (h : editType name edit supply ws = .error e ws') : ws' = ws := by
  simp only [editType] at h
  split at h
  · next hrun =>
    cases h
    exact onRegistry_error hedit hrun
  · cases h

theorem setFieldCount_atomic (name : String) (variant count : Nat) :
    Atomic (setFieldCount name variant count) :=
  fun _ _ _ h => editType_error (Registry.editVariant_atomic _ _) h

theorem setFieldType_atomic (name : String) (variant field : Nat) (ty : Option Ty) :
    Atomic (setFieldType name variant field ty) := by
  intro ws e ws' h
  simp only [setFieldType] at h
  split at h
  · cases h
    rfl
  exact editType_error (Registry.editVariant_atomic _ _) h

/-! ## Steps -/

/-- The edit of a step, without what it gives. -/
def Action.edit : Action → Edit Unit
  | addNode block => discard (Workspace.addNode block)
  | removeNode n => discard (Workspace.removeNode n)
  | connect output input => Workspace.connect output input
  | disconnect output input => discard (Workspace.disconnect output input)
  | setArity n items => discard (Workspace.setArity n items)
  | renameBinder n branch field name => discard (Workspace.renameBinder n branch field name)
  | defineType candidate variants => discard (Workspace.defineType candidate variants)
  | defineFunction name ty => discard (Workspace.defineFunction name ty)
  | renameType old candidate => discard (Workspace.renameType old candidate)
  | renameCtor old candidate => discard (Workspace.renameCtor old candidate)
  | deleteType name => discard (Workspace.deleteType name)
  | setVariantCount name count => discard (Workspace.setVariantCount name count)
  | setFieldCount name variant count => discard (Workspace.setFieldCount name variant count)
  | setFieldType name variant field ty => discard (Workspace.setFieldType name variant field ty)
  | attach output input => Workspace.attach output input
  | resolveAll => fun ws => .ok () ws.resolveAll.2

theorem discard_apply (edit : Edit α) (ws : Workspace) :
    (discard edit : Edit Unit) ws =
      match edit ws with
      | .ok _ ws' => .ok () ws'
      | .error e ws' => .error e ws' := by
  simp only [discard, Functor.mapConst, EStateM.map, Function.comp]
  cases edit ws <;> rfl

theorem after?_discard (edit : Edit α) (ws : Workspace) :
    after? (discard edit : Edit Unit) ws = after? edit ws := by
  rw [after?, after?, discard_apply]
  cases edit ws <;> rfl

theorem discard_error {edit : Edit α} (h : (discard edit : Edit Unit) ws = .error e ws') :
    edit ws = .error e ws' := by
  rw [discard_apply] at h
  split at h
  · cases h
  · next hedit =>
    cases h
    exact hedit

theorem Action.run_eq_after? (ws : Workspace) (action : Action) :
    action.run ws = after? action.edit ws := by
  cases action with
  | connect output input => rfl
  | attach output input => rfl
  | resolveAll => rfl
  | addNode block => exact (after?_discard (Workspace.addNode block) ws).symm
  | _ => exact (after?_discard _ ws).symm

theorem Action.run_eq_some_iff (ws : Workspace) (action : Action) :
    action.run ws = some ws' ↔ action.edit ws = .ok () ws' := by
  rw [run_eq_after?, after?]
  cases action.edit ws with
  | ok a ws₁ => simp
  | error e ws₁ => simp

theorem Action.run_eq_none_iff (ws : Workspace) (action : Action) :
    action.run ws = none ↔ ∃ e ws', action.edit ws = .error e ws' := by
  rw [run_eq_after?, after?]
  cases action.edit ws with
  | ok a ws' => simp
  | error e ws' => simp

/-- A refused step changes nothing, unless it sets the number of variants of a type. -/
theorem Action.edit_error {action : Action}
    (hgrow : ∀ name count, action ≠ .setVariantCount name count) (hgraph : ws.graph.WellFormed)
    (h : action.edit ws = .error e ws') : ws' = ws := by
  cases action with
  | addNode block => cases discard_error h
  | removeNode n => exact removeNode_atomic n ws e ws' (discard_error h)
  | connect output input => exact connect_atomic output input ws e ws' h
  | disconnect output input => exact disconnect_atomic output input ws e ws' (discard_error h)
  | setArity n items => exact setArity_atomic n items ws e ws' (discard_error h)
  | renameBinder n branch field name =>
    exact renameBinder_atomic n branch field name ws e ws' (discard_error h)
  | defineType candidate variants =>
    exact defineType_atomic candidate variants ws e ws' (discard_error h)
  | defineFunction name ty => exact defineFunction_atomic name ty ws e ws' (discard_error h)
  | renameType old candidate => exact renameType_error hgraph (discard_error h)
  | renameCtor old candidate => exact renameCtor_atomic old candidate ws e ws' (discard_error h)
  | deleteType name => exact deleteType_atomic name ws e ws' (discard_error h)
  | setVariantCount name count => exact absurd rfl (hgrow name count)
  | setFieldCount name variant count =>
    exact setFieldCount_atomic name variant count ws e ws' (discard_error h)
  | setFieldType name variant field ty =>
    exact setFieldType_atomic name variant field ty ws e ws' (discard_error h)
  | attach output input => exact attach_atomic output input ws e ws' h
  | resolveAll => cases h

end Workspace
end BlockGraph
