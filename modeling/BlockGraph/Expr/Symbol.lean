/-!
Interned names.

A symbol is the number of a name in a table, by order of first use.  A symbol means nothing to a
table that has not reached its number.
-/

namespace BlockGraph

/-- The number of an interned name. -/
abbrev Symbol := Nat

/-- Names in order of first use. -/
structure SymbolTable where
  names : List String := []

namespace SymbolTable

def get? (table : SymbolTable) (name : String) : Option Symbol :=
  table.names.idxOf? name

/-- The symbol of a name, which is added if it is new. -/
def intern (table : SymbolTable) (name : String) : Symbol × SymbolTable :=
  match table.get? name with
  | some symbol => (symbol, table)
  | none => (table.names.length, ⟨table.names ++ [name]⟩)

def resolve? (table : SymbolTable) (symbol : Symbol) : Option String :=
  table.names[symbol]?

def text (table : SymbolTable) (symbol : Symbol) : String :=
  (table.resolve? symbol).getD "<?>"

end SymbolTable

end BlockGraph
