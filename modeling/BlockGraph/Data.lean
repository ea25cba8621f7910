import BlockGraph.Ty.Tree

/-!
Plain data, as it comes out of a file.

Descriptions and stored types are decoded from this form.  Only texts, whole numbers, lists and
tables matter to them, so all other values are one.
-/

namespace BlockGraph

/-- A value of a file format. -/
inductive Data where
  | text (s : String)
  | number (n : Int)
  /-- A value that is of no use to any description. -/
  | other
  | list (items : List Data)
  | table (entries : List (String × Data))
  deriving Inhabited

namespace Data

def find? (key : String) (entries : List (String × Data)) : Option Data :=
  entries.lookup key

def asText? : Data → Option String
  | text s => some s
  | _ => none

def asCount? : Data → Option Nat
  | number (.ofNat n) => some n
  | _ => none

def asList? : Data → Option (List Data)
  | list items => some items
  | _ => none

/-- The entries of a table in the order of their keys. -/
def asSorted? : Data → Option (List (String × Data))
  | table entries => some (entries.mergeSort fun a b => a.1 ≤ b.1)
  | _ => none

/-- A part of a record.  A record is a table with its parts under their keys, or a list with its
parts in order. -/
def part? (d : Data) (place : Nat) (key : String) : Option Data :=
  match d with
  | table entries => find? key entries
  | list items => items[place]?
  | _ => none

/-- The parts of a list, each read by `f`.  A list that is left out has no parts. -/
def listOr {α : Type} (f : Data → Option α) : Option Data → Option (List α)
  | none => some []
  | some d => d.asList?.bind fun items => items.mapM f

/-- Whether a record given as a list has no more than `n` parts. -/
def isAtMost (n : Nat) : Data → Bool
  | list items => items.length ≤ n
  | _ => true

end Data

namespace TyTree

mutual

/-- The stored type in a value: a variable if the value has a text under `var`, and else a literal
with the text under `name` and the list under `args`, which may be left out. -/
def ofData? : Data → Option TyTree
  | .table entries =>
    match (Data.find? "var" entries).bind Data.asText? with
    | some name => some (var name)
    | none =>
      match (Data.find? "name" entries).bind Data.asText? with
      | some name => (argsIn? entries).map (lit name)
      | none => none
  | _ => none

def argsIn? : List (String × Data) → Option (List TyTree)
  | [] => some []
  | (key, value) :: rest =>
    if key = "args" then
      match value with
      | .list items => ofDataAll? items
      | _ => none
    else argsIn? rest

def ofDataAll? : List Data → Option (List TyTree)
  | [] => some []
  | item :: rest =>
    match ofData? item, ofDataAll? rest with
    | some t, some ts => some (t :: ts)
    | _, _ => none

end

end TyTree

end BlockGraph
