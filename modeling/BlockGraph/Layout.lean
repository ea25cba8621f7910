import BlockGraph.Text.Width

/-!
Laying out text within a line width.

A document says which texts stand next to each other, where a line may end, and which parts are
to be kept on one line if they can be.  `Doc.render` chooses the line ends.  A group is put on one
line exactly if its content, and what follows it up to the next place where a line does end, stays
within the width; otherwise its own line ends are taken, and the groups inside it are tried on
their own.
-/

namespace BlockGraph

/-- A document to be laid out. -/
inductive Doc where
  /-- No text. -/
  | empty
  /-- A text that is never divided. -/
  | text (s : String)
  /-- A space, or the end of a line. -/
  | line
  /-- One document after another. -/
  | cat (first second : Doc)
  /-- A document whose lines start further to the right. -/
  | nest (amount : Nat) (body : Doc)
  /-- A document that stands on one line if it fits. -/
  | group (body : Doc)

namespace Doc

instance : Append Doc := ⟨cat⟩

def parens (d : Doc) : Doc :=
  text "(" ++ d ++ text ")"

def spaced : List Doc → Doc
  | [] => empty
  | [d] => d
  | d :: rest => d ++ text " " ++ spaced rest

/-- Whether the line ends of a document are taken (`broken`) or are spaces (`flat`). -/
inductive Mode where
  | flat
  | broken

def size : Doc → Nat
  | empty => 1
  | text _ => 1
  | line => 1
  | cat a b => size a + size b + 1
  | nest _ d => size d + 1
  | group d => size d + 1

/-- A document together with the indentation and the mode it is laid out in. -/
structure Item where
  indent : Nat
  mode : Mode
  doc : Doc

/-- The total size of the documents still to be laid out. -/
def pending : List Item → Nat
  | [] => 0
  | item :: items => item.doc.size + pending items

@[simp]
theorem pending_nil : pending [] = 0 := rfl

@[simp]
theorem pending_cons (item : Item) (items : List Item) :
    pending (item :: items) = item.doc.size + pending items := rfl

/-- Whether the items reach the end, or a line end that is taken, without a text that ends beyond
`width`, when they start at the column `column`. -/
def fits (width : Nat) (column : Nat) : List Item → Bool
  | [] => true
  | ⟨_, _, empty⟩ :: rest => fits width column rest
  | ⟨_, _, text s⟩ :: rest =>
    column + Text.width s ≤ width && fits width (column + Text.width s) rest
  | ⟨_, .flat, line⟩ :: rest => column + 1 ≤ width && fits width (column + 1) rest
  | ⟨_, .broken, line⟩ :: _ => true
  | ⟨i, m, cat a b⟩ :: rest => fits width column (⟨i, m, a⟩ :: ⟨i, m, b⟩ :: rest)
  | ⟨i, m, nest k d⟩ :: rest => fits width column (⟨i + k, m, d⟩ :: rest)
  | ⟨i, m, group d⟩ :: rest => fits width column (⟨i, m, d⟩ :: rest)
termination_by items => pending items
decreasing_by all_goals simp [size] <;> omega

/-- The texts that the items are written as, from the column `column` on.  What follows a group
counts with all its line ends taken when the group is tried on one line. -/
def layout (width : Nat) (column : Nat) : List Item → List String
  | [] => []
  | ⟨_, _, empty⟩ :: rest => layout width column rest
  | ⟨_, _, text s⟩ :: rest => s :: layout width (column + Text.width s) rest
  | ⟨_, .flat, line⟩ :: rest => " " :: layout width (column + 1) rest
  | ⟨i, .broken, line⟩ :: rest => "\n" :: "".pushn ' ' i :: layout width i rest
  | ⟨i, m, cat a b⟩ :: rest => layout width column (⟨i, m, a⟩ :: ⟨i, m, b⟩ :: rest)
  | ⟨i, m, nest k d⟩ :: rest => layout width column (⟨i + k, m, d⟩ :: rest)
  | ⟨i, .flat, group d⟩ :: rest => layout width column (⟨i, .flat, d⟩ :: rest)
  | ⟨i, .broken, group d⟩ :: rest =>
    if fits width column (⟨i, .flat, d⟩ :: rest.map fun item => { item with mode := .broken }) then
      layout width column (⟨i, .flat, d⟩ :: rest)
    else
      layout width column (⟨i, .broken, d⟩ :: rest)
termination_by items => pending items
decreasing_by all_goals simp [size] <;> omega

/-- The document as text, in lines of `width` columns where that is possible. -/
def render (width : Nat) (d : Doc) : String :=
  String.join (layout width 0 [⟨0, .broken, d⟩])

end Doc

end BlockGraph
