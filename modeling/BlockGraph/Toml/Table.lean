import BlockGraph.Data

/-!
Tables that are put together from pieces.

The parts of a table may be spread over a file: a header opens a table, and dotted keys reach into
tables below the open one.  A table is given only once.  So each table remembers how it came about,
and that decides which later piece may add to it.
-/

namespace BlockGraph.Toml

/-- How a table came about. -/
inductive Origin where
  /-- It stands around a table with a header of its own. -/
  | around
  /-- It stands around the last part of a dotted key. -/
  | dotted
  /-- It has a header of its own, or is the outermost table. -/
  | given
  deriving DecidableEq

/-- What stands under a key. -/
inductive Entry where
  | value (d : Data)
  | table (origin : Origin) (entries : List (String × Entry))
  /-- An array of tables, of which only the last one can still grow. -/
  | tables (earlier : List Data) (last : List (String × Entry))

namespace Entry

mutual

def toData : Entry → Data
  | value d => d
  | table _ entries => .table (dataOf entries)
  | tables earlier last => .list (earlier ++ [.table (dataOf last)])

def dataOf : List (String × Entry) → List (String × Data)
  | [] => []
  | (key, e) :: rest => (key, e.toData) :: dataOf rest

end

end Entry

structure Table where
  origin : Origin
  entries : List (String × Entry)

namespace Table

def empty (origin : Origin) : Table := ⟨origin, []⟩

def toData (t : Table) : Data :=
  .table (Entry.dataOf t.entries)

def get? (t : Table) (key : String) : Option Entry :=
  t.entries.lookup key

def put (t : Table) (key : String) (e : Entry) : Table :=
  { t with entries := (key, e) :: t.entries.filter fun old => old.1 ≠ key }

/-- Changes the table at the end of a path from `t`.  Tables that are missing on the way come about
as `origin` says.  A dotted key does not lead through a table that is given elsewhere, and no path
leads through a value. -/
def update (origin : Origin) : List String → (Table → Option Table) → Table → Option Table
  | [], change, t => change t
  | key :: path, change, t =>
    match t.get? key with
    | none =>
      (update origin path change (empty origin)).map fun sub =>
        t.put key (.table sub.origin sub.entries)
    | some (.value _) => none
    | some (.tables earlier last) =>
      (update origin path change ⟨.given, last⟩).map fun sub =>
        t.put key (.tables earlier sub.entries)
    | some (.table old entries) =>
      if origin = .dotted && old = .given then none
      else
        (update origin path change ⟨old, entries⟩).map fun sub =>
          t.put key (.table sub.origin sub.entries)

def add (key : String) (d : Data) (t : Table) : Option Table :=
  if (t.get? key).isSome then none else some (t.put key (.value d))

/-- Adds a value under a dotted key.  The table that the value comes to stand in must be made of
dotted keys. -/
def addAt (path : List String) (key : String) (d : Data) (t : Table) : Option Table :=
  if path.isEmpty then t.add key d
  else t.update .dotted path fun sub => if sub.origin = .dotted then sub.add key d else none

/-- Adds values under dotted keys one after another, each with the last part of its key apart. -/
def addAll : List (List String × Data) → Table → Option Table
  | [], t => some t
  | (parts, d) :: rest, t =>
    match parts.getLast? with
    | none => none
    | some key => (t.addAt parts.dropLast key d).bind (addAll rest)

/-- Gives a table by its header.  It must not have been given before, and must not be made of dotted
keys. -/
def give (key : String) (t : Table) : Option Table :=
  match t.get? key with
  | none => some (t.put key (.table .given []))
  | some (.table .around entries) => some (t.put key (.table .given entries))
  | some _ => none

/-- Begins the next table of an array of tables. -/
def beginNext (key : String) (t : Table) : Option Table :=
  match t.get? key with
  | none => some (t.put key (.tables [] []))
  | some (.tables earlier last) =>
    some (t.put key (.tables (earlier ++ [.table (Entry.dataOf last)]) []))
  | some _ => none

end Table

end BlockGraph.Toml
