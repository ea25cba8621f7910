import BlockGraph.Registry.Basic
import BlockGraph.Text.Blank

/-!
Edits of a registry.

An edit either succeeds with a result or is refused.  Both ways it hands on a registry, so that it
can be said what a refused edit leaves behind.
-/

namespace BlockGraph.Registry

/-- An edit of a registry that gives an `α` if it is not refused. -/
abbrev Edit (α : Type) := EStateM EditError Registry α

def modifyType (r : Registry) (name : String) (f : UserType → UserType) : Registry :=
  { r with types := r.types.map fun t => if t.name = name then f t else t }

/-- Changes every field type that is set.  The result may be that it is not set any more. -/
def mapFields (r : Registry) (f : Ty → Option Ty) : Registry :=
  { r with types := r.types.map fun t =>
      { t with variants := t.variants.map fun v =>
          { v with fields := v.fields.map fun field => field.bind f } } }

/-- Changes the type of a given name, if there is one. -/
def editType {α : Type} (name : String) (f : UserType → Edit α) : Edit α := fun r =>
  match r.userType? name with
  | none => .error (.unknownType name) r
  | some t => f t r

/-- Whether a name can be given to a function: it holds no blank, and it is neither a constructor
nor a function of the prelude. -/
def isFunctionName (r : Registry) (name : String) : Bool :=
  !name.isEmpty && !name.toList.any Text.isBlank && (r.ctor? name).isNone &&
    (prelude.lookup name).isNone

/-- Defines a function, or gives a new signature to it. -/
def defineFunction (name : String) (ty : Ty) : Edit Unit := fun r =>
  if r.isFunctionName name then
    .ok () { r with functions := (name, ty) :: r.functions.filter fun f => f.1 ≠ name }
  else .error (.invalidName name) r

/-- Finds free names for the constructors of a new type, one after another. -/
def nameVariants (r : Registry) (reserved : List String) :
    List Variant → Except TypeError (List Variant)
  | [] => .ok []
  | v :: rest =>
    match r.proposeCtorName v.ctor reserved with
    | .error e => .error e
    | .ok name =>
      match r.nameVariants (reserved ++ [name]) rest with
      | .error e => .error e
      | .ok variants => .ok ({ v with ctor := name } :: variants)

/-- Defines a user type under a free name near the candidate, and gives that name. -/
def defineType (candidate : String) (variants : List Variant) : Edit String := fun r =>
  match r.proposeTypeName candidate with
  | .error e => .error (.type e) r
  | .ok name =>
    match r.nameVariants [] variants with
    | .error e => .error (.type e) r
    | .ok variants => .ok name { r with types := r.types ++ [⟨name, variants⟩] }

/-- Gives a user type a free name near the candidate, in every field and function that mentions it
too.  Nothing changes if the candidate is its present name. -/
def renameType (old candidate : String) : Edit String :=
  editType old fun _ r =>
    if Naming.sanitize candidate Naming.typePlaceholder = old then .ok old r
    else
      match r.proposeTypeName candidate with
      | .error e => .error (.type e) r
      | .ok new =>
        let r := (r.modifyType old fun t => { t with name := new }).mapFields
          fun ty => some (ty.renameLiteral old new)
        .ok new { r with functions := r.functions.map fun f => (f.1, f.2.renameLiteral old new) }

/-- Gives a constructor a free name near the candidate.  Nothing changes if the candidate is its
present name. -/
def renameCtor (old candidate : String) : Edit String := fun r =>
  match r.ctor? old with
  | none => .error (.unknownConstructor old) r
  | some (owner, k) =>
    if Naming.sanitize candidate Naming.constructorPlaceholder = old then .ok old r
    else
      match r.proposeCtorName candidate [] with
      | .error e => .error (.type e) r
      | .ok new =>
        .ok new (r.modifyType owner.name fun t =>
          { t with variants := t.variants.modify k fun v => { v with ctor := new } })

/-- Removes a user type.  Fields of other types that mentioned it are not set any more. -/
def deleteType (name : String) : Edit UserType :=
  editType name fun t r =>
    .ok t ({ r with types := r.types.filter fun t => t.name ≠ name }.mapFields
      fun ty => if ty.mentions name then none else some ty)

/-- Adds variants without fields, each under a free name. -/
def growType (name : String) : Nat → Edit Unit
  | 0, r => .ok () r
  | count + 1, r =>
    match r.proposeCtorName Naming.constructorPlaceholder [] with
    | .error e => .error (.type e) r
    | .ok ctor =>
      growType name count
        (r.modifyType name fun t => { t with variants := t.variants ++ [⟨ctor, []⟩] })

/-- Sets the number of variants of a type, and gives the constructors that are dropped.  If there is
no free name for a new variant, those added before it stay. -/
def setVariantCount (name : String) (count : Nat) : Edit (List String) :=
  editType name fun t r =>
    if count ≤ t.variants.length then
      .ok ((t.variants.drop count).map Variant.ctor)
        (r.modifyType name fun t => { t with variants := t.variants.take count })
    else
      match growType name (count - t.variants.length) r with
      | .ok () r => .ok [] r
      | .error e r => .error e r

/-- Changes a variant of a type, if there is one at that position. -/
def editVariant (name : String) (variant : Nat) (f : Variant → Except EditError Variant) :
    Edit Unit :=
  editType name fun t r =>
    match t.variants[variant]? with
    | none => .error (.unknownVariant name variant) r
    | some v =>
      match f v with
      | .error e => .error e r
      | .ok v => .ok () (r.modifyType name fun t =>
          { t with variants := t.variants.set variant v })

/-- The list with `count` elements, cut or filled up at the end. -/
def resize {α : Type} (filler : α) (count : Nat) (l : List α) : List α :=
  l.take count ++ List.replicate (count - l.length) filler

def setFieldCount (name : String) (variant count : Nat) : Edit Unit :=
  editVariant name variant fun v => .ok { v with fields := resize none count v.fields }

/-- Sets the type of a field, or takes it away. -/
def setFieldType (name : String) (variant field : Nat) (ty : Option Ty) : Edit Unit :=
  editVariant name variant fun v =>
    if field < v.fields.length then .ok { v with fields := v.fields.set field ty }
    else .error (.unknownField name variant field)

def clear : Edit Unit := fun _ => .ok () withPrelude

end BlockGraph.Registry
