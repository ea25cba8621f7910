import BlockGraph.Command

/-!
The arguments of the program.

A command comes first, and then its options.  Every command takes the file to read, and `build` also
takes the node whose expression is asked for.  How much is logged can be asked for anywhere; nothing
is logged here, so this is accepted and has no effect.
-/

namespace BlockGraph

structure Arguments where
  command : Command
  /-- The file that holds the description. -/
  path : String

namespace Arguments

def usage : String :=
  "usage: check -i FILE | build -i FILE -r NODE | types -i FILE"

structure Options where
  input : Option String := none
  root : Option String := none

inductive Flag where
  | input
  | root

def isVerbose (arg : String) : Bool :=
  arg = "--verbose" ||
    match arg.toList with
    | '-' :: 'v' :: rest => rest.all (· = 'v')
    | _ => false

def flag? (arg : String) : Option Flag :=
  if arg = "-i" || arg = "--input" then some .input
  else if arg = "-r" || arg = "--root" then some .root
  else none

/-- Gives a value to an option that has none yet. -/
def Options.set? (o : Options) (value : String) : Flag → Option Options
  | .input => if o.input.isNone then some { o with input := some value } else none
  | .root => if o.root.isNone then some { o with root := some value } else none

def options? : List String → Options → Option Options
  | [], o => some o
  | [arg], o => if isVerbose arg then some o else none
  | arg :: value :: rest, o =>
    if isVerbose arg then options? (value :: rest) o
    else
      match flag? arg with
      | some flag => (o.set? value flag).bind (options? rest)
      | none => none

/-- The arguments, if they are those of a command. -/
def ofList? (args : List String) : Option Arguments :=
  match args.dropWhile isVerbose with
  | [] => none
  | name :: rest => do
    let o ← options? rest {}
    let path ← o.input
    let command ← Command.ofName? name o.root
    return { command, path }

end Arguments

end BlockGraph
