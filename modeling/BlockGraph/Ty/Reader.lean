import BlockGraph.Text.Quoted
import BlockGraph.Ty.Basic
import BlockGraph.Ty.Token

/-!
Reading a type.

    type     := applied ("->" type)?
    applied  := NAME atom* | atom
    atom     := VAR | NAME | "(" type ")"

The reader is a machine that takes one token after another.  It keeps what it has read as levels,
one for each bracket that is still open: the domains of the arrows so far, and the operand that is
being read.  A token that has no successor state is the first one at which no type can continue,
and its offset is where the text is refused.
-/

namespace BlockGraph

/-- A text that is not a type, with the byte offset at which that shows. -/
structure ReadError where
  source : String
  offset : Nat

def ReadError.message (e : ReadError) : String :=
  "invalid type (at offset " ++ toString e.offset ++ " in " ++ Text.quote e.source ++ ")"

namespace Reader

/-- What has been read of the current operand. -/
inductive Operand where
  /-- Nothing yet. -/
  | vacant
  /-- A name, which takes any number of atoms as arguments. -/
  | applied (name : String) (args : List NamedTy)
  /-- A variable or a type in brackets, which takes no arguments. -/
  | whole (t : NamedTy)

namespace Operand

def value? : Operand → Option NamedTy
  | vacant => none
  | applied name args => some (.lit name args)
  | whole t => some t

def addAtom (t : NamedTy) : Operand → Option Operand
  | vacant => some (whole t)
  | applied name args => some (applied name (args ++ [t]))
  | whole _ => none

def addName (name : String) : Operand → Option Operand
  | vacant => some (applied name [])
  | applied head args => some (applied head (args ++ [.lit name []]))
  | whole _ => none

def takesAtom : Operand → Bool
  | whole _ => false
  | _ => true

end Operand

/-- What has been read since the innermost open bracket. -/
structure Level where
  domains : List NamedTy := []
  operand : Operand := .vacant

def Level.value? (level : Level) : Option NamedTy :=
  level.operand.value?.map (TyTerm.curried level.domains)

/-- The current level, and the levels outside it from the innermost one on. -/
structure State where
  level : Level := {}
  outer : List Level := []

/-- The state after a token, if a type can continue with it. -/
def State.step (s : State) : Token → Option State
  | .name word =>
    (s.level.operand.addName word).map fun operand =>
      { s with level := { s.level with operand } }
  | .var word =>
    (s.level.operand.addAtom (.var word)).map fun operand =>
      { s with level := { s.level with operand } }
  | .arrow =>
    s.level.operand.value?.map fun t =>
      { s with level := { domains := s.level.domains ++ [t] } }
  | .lparen =>
    if s.level.operand.takesAtom then some { level := {}, outer := s.level :: s.outer } else none
  | .rparen =>
    match s.level.value?, s.outer with
    | some t, level :: outer =>
      (level.operand.addAtom t).map fun operand => { level := { level with operand }, outer }
    | _, _ => none
  | .junk => none

/-- The state after all tokens, or the offset of the first one that cannot follow. -/
def State.run (s : State) : List Lexeme → Except Nat State
  | [] => .ok s
  | ⟨token, offset⟩ :: rest =>
    match s.step token with
    | some s => s.run rest
    | none => .error offset

/-- The type that has been read, if no bracket is open and no operand is missing. -/
def State.result? (s : State) : Option NamedTy :=
  if s.outer.isEmpty then s.level.value? else none

end Reader

def NamedTy.read (source : String) : Except ReadError NamedTy :=
  match Reader.State.run {} (Token.scan 0 source.toList) with
  | .error offset => .error ⟨source, offset⟩
  | .ok state =>
    match state.result? with
    | some t => .ok t
    | none => .error ⟨source, source.utf8ByteSize⟩

end BlockGraph
