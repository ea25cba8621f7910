import BlockGraph.Graph.Block
import BlockGraph.Registry.Naming
import BlockGraph.Ty.Supply

/-!
The registry of types and functions.

A registry holds the user types with their variants, and the signatures of functions.  Types,
constructors and functions are found by name.  The signature of a constructor and of a distinction
of cases is worked out from the definition each time, so a changed definition shows at once.  A
field without a type stands for a fresh variable.
-/

namespace BlockGraph

/-- One way to build a value of a user type. -/
structure Variant where
  ctor : String
  /-- The types of the fields.  The type of a field may not be set yet. -/
  fields : List (Option Ty)

structure UserType where
  name : String
  variants : List Variant

structure Registry where
  types : List UserType := []
  functions : List (String × Ty) := []

namespace Registry

/-- The types without arguments that are always known. -/
def builtinTypes : List String := ["Bool", "Number", "Color", "Picture", "Text"]

def listType : String := "List"

/-- The function that joins two branches of a distinction of cases. -/
def branchName : String := "#"

/-- The function that evaluates a value before the branches that look at it. -/
def evaluateName : String := "1ev"

/-- The function that marks a value with the name of its type. -/
def scrutineeName : String := "1const"

/-- The functions that expressions for distinctions of cases are made of. -/
def prelude : List (String × Ty) :=
  [(branchName, .curried [.var 0, .var 0] (.var 0)),
   (evaluateName, .curried [.var 1, .var 2] (.var 2)),
   (scrutineeName, .curried [.var 3, .var 3] (.var 3))]

/-- The first variables that no function of the prelude uses. -/
def preludeSupply : Supply := ⟨4⟩

def withPrelude : Registry := { functions := prelude }

/-! ## Looking up -/

def function? (r : Registry) (name : String) : Option Ty :=
  r.functions.lookup name

def userType? (r : Registry) (name : String) : Option UserType :=
  r.types.find? fun t => t.name = name

/-- The type that a constructor belongs to, and the position of its variant. -/
def ctor? (r : Registry) (name : String) : Option (UserType × Nat) :=
  r.types.findSome? fun t => (t.variants.findIdx? fun v => v.ctor = name).map (t, ·)

/-- The variant of a constructor, with the name of the type it belongs to. -/
def variant? (r : Registry) (name : String) : Option (String × Variant) :=
  (r.ctor? name).bind fun (t, k) => t.variants[k]?.map (t.name, ·)

/-- The type of a field of a user type.  It is missing if the field is not set, or if there is no
such field. -/
def fieldType? (r : Registry) (type : String) (variant field : Nat) : Option Ty :=
  (r.userType? type).bind fun t =>
    t.variants[variant]?.bind fun v => v.fields[field]?.join

def isBuiltin (name : String) : Bool :=
  builtinTypes.contains name

def isKnownType (r : Registry) (name : String) : Bool :=
  isBuiltin name || name = listType || (r.userType? name).isSome

/-- The first literal of a type that does not stand for a type. -/
def unknownIn? (r : Registry) (t : Ty) : Option String :=
  t.literalNames.find? fun name => !r.isKnownType name

/-- Every constructor, in the order of types and variants, with the type it belongs to. -/
def ctors (r : Registry) : List (String × Variant) :=
  r.types.flatMap fun t => t.variants.map (t.name, ·)

/-! ## Free names -/

def proposeTypeName (r : Registry) (candidate : String) : Except TypeError String :=
  Naming.propose candidate Naming.typePlaceholder r.isKnownType

/-- A free name for a constructor.  It differs from constructors, functions and reserved names. -/
def proposeCtorName (r : Registry) (candidate : String) (reserved : List String) :
    Except TypeError String :=
  Naming.propose candidate Naming.constructorPlaceholder fun name =>
    (r.ctor? name).isSome || (r.function? name).isSome || reserved.contains name

/-! ## Signatures -/

/-- The types of fields, with a fresh variable for each one that is not set. -/
def fillFields : List (Option Ty) → Supply → List Ty × Supply
  | [], s => ([], s)
  | some t :: rest, s =>
    let (ts, s) := fillFields rest s
    (t :: ts, s)
  | none :: rest, s =>
    let (t, s) := s.fresh
    let (ts, s) := fillFields rest s
    (t :: ts, s)

/-- The signature of a constructor: from its fields to the type it belongs to. -/
def ctorSignature? (r : Registry) (name : String) (s : Supply) : Option (Ty × Supply) :=
  (r.variant? name).map fun (owner, v) =>
    let (params, s) := fillFields v.fields s
    (.curried params (.lit owner []), s)

/-- The signature of a distinction of cases: from a value of the type and one result for each
variant to a result. -/
def caseSignature? (r : Registry) (type : String) (s : Supply) : Option (Ty × Supply) :=
  (r.userType? type).map fun t =>
    let (result, s) := s.fresh
    (.curried (.lit t.name [] :: List.replicate t.variants.length result) result, s)

def signature? (r : Registry) (name : String) (s : Supply) : Option (Ty × Supply) :=
  match r.function? name with
  | some t => some (t, s)
  | none => r.ctorSignature? name s

end Registry

namespace Block

def listSignature (items : Nat) (s : Supply) : Ty × Supply :=
  let (item, s) := s.fresh
  (.curried (List.replicate items item) (.lit Registry.listType [item]), s)

/-- The general signature of a node.  A literal has none, because its type is fixed. -/
def derive (r : Registry) (s : Supply) : Block → Except SignatureFault (Option Ty × Supply)
  | literal ty _ =>
    match r.unknownIn? ty with
    | some name => .error (.unknownType name)
    | none => .ok (none, s)
  | function name =>
    match r.function? name with
    | none => .error (.unknownFunction name)
    | some t =>
      match r.unknownIn? t with
      | some unknown => .error (.functionMentions name unknown)
      | none => .ok (some t, s)
  | ctor name =>
    match r.ctorSignature? name s with
    | some (t, s) => .ok (some t, s)
    | none => .error (.unknownConstructor name)
  | caseOf type _ =>
    match r.caseSignature? type s with
    | some (t, s) => .ok (some t, s)
    | none => .error (.unknownType type)
  | list items =>
    let (t, s) := listSignature items s
    .ok (some t, s)
  | localVar _ =>
    let (t, s) := s.fresh
    .ok (some t, s)

/-- Whether the signature of a node depends on a user type. -/
def dependsOn (r : Registry) (type : String) : Block → Bool
  | literal ty _ => ty.mentions type
  | function name => (r.function? name).any fun t => t.mentions type
  | ctor name => (r.ctor? name).any fun (t, _) => t.name = type
  | caseOf scrutinee _ => scrutinee = type
  | list _ => false
  | localVar _ => false

end Block

end BlockGraph
