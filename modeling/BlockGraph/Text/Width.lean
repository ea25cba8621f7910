import BlockGraph.Text.Width.Ligature

/-!
Display width: how many columns a text takes on a line of fixed-width characters.

A text of ASCII characters takes one column a character, whatever the characters are.  In any other
text the columns of the characters are added up from the last to the first, and a character may take
more or fewer columns for what follows it: a line feed, a selector, a part of an emoji, or a letter
that it is drawn together with.
-/

namespace BlockGraph.Text

/-- A character that says how the one before it is shown. -/
inductive Selector where
  /-- As a picture, in two columns. -/
  | picture
  /-- As a sign of text, in one column. -/
  | sign
  /-- In two columns, of a quotation mark. -/
  | wide
  deriving DecidableEq

namespace Selector

def ofChar? (c : Char) : Option Selector :=
  if c.toNat = 0xfe0f then some picture
  else if c.toNat = 0xfe0e then some sign
  else if c.toNat = 0xfe01 then some wide
  else none

/-- Whether a selector says anything about a character. -/
def applies (c : Char) : Selector → Bool
  | picture => selectableChars.contains c
  | sign => isNarrowable c
  | wide => c.toNat = 0x2018 || c.toNat = 0x2019 || c.toNat = 0x201c || c.toNat = 0x201d

/-- The columns of a character that a selector applies to. -/
def columns : Selector → Nat
  | sign => 1
  | _ => 2

end Selector

/-- How a text begins. -/
inductive Start where
  | plain
  | lineFeed
  | emoji (tail : EmojiTail)
  | ligature (tail : LigatureTail)
  deriving DecidableEq

namespace Start

def ofChar (c : Char) : Start :=
  match EmojiTail.ofChar? c, LigatureTail.ofChar? c with
  | some tail, _ => emoji tail
  | none, some tail => ligature tail
  | none, none => if c = '\n' then lineFeed else plain

/-- Whether a picture comes next, with a joiner before it. -/
def isJoined (s : Start) : Bool :=
  s = emoji .joined || s = emoji .joinedKeycap

/-- Whether a start lasts when a mark that is not shown comes before it. -/
def isLasting : Start → Bool
  | ligature tail => tail.isLasting
  | _ => false

/-- The columns that a character takes before a start that it belongs to, and the start that they
make. -/
def before? (c : Char) : Start → Option (Int × Start)
  | plain => none
  | lineFeed => if c = '\r' then some (0, plain) else none
  | emoji tail => (tail.before? c).map fun r => (r.1, emoji r.2)
  | ligature tail => (tail.before? c).map fun r => (r.1, r.2.elim plain ligature)

end Start

/-- How a text begins, and the selectors before that.  Of several selectors only the first counts,
unless the start is one that lasts. -/
structure Context where
  start : Start
  selectors : List Selector

namespace Context

def plain : Context := ⟨.plain, []⟩

/-- The selector that says how a character is shown. -/
def selector? (k : Context) (c : Char) : Option Selector :=
  [.picture, .sign, .wide].find? fun s => s ∈ k.selectors && s.applies c

/-- The columns of a character that a selector applies to, and what it is to the character before
it. -/
def selected (k : Context) (s : Selector) : Int × Context :=
  if s = .picture then
    (if k.start.isJoined then 0 else s.columns, ⟨.emoji .picture, []⟩)
  else (s.columns, plain)

/-- The context with a further selector.  A selector for a picture does not reach across others. -/
def select (k : Context) (s : Selector) : Context :=
  if k.start.isLasting then ⟨k.start, s :: k.selectors.filter (· ≠ .picture)⟩
  else if s = .picture && k.start.isJoined && k.selectors.isEmpty then ⟨k.start, [s]⟩
  else ⟨.plain, [s]⟩

/-- The columns of a character that no selector applies to, and what it is to the character before
it. -/
def unselected (start : Start) (c : Char) : Int × Context :=
  match start.before? c with
  | some r => (r.1, ⟨r.2, []⟩)
  | none => (charWidth c, ⟨Start.ofChar c, []⟩)

/-- The columns of a character in a context, and the context that they make together. -/
def before (k : Context) (c : Char) : Int × Context :=
  match k.selector? c, Selector.ofChar? c with
  | some s, _ => k.selected s
  | none, some s => (0, k.select s)
  | none, none =>
    unselected (if k.selectors.isEmpty || k.start.isLasting then k.start else .plain) c

end Context

/-- The columns that characters take one after another, and what they are to a character before
them. -/
def columns : List Char → Int × Context
  | [] => (0, Context.plain)
  | c :: rest =>
    let after := columns rest
    let first := after.2.before c
    (after.1 + first.1, first.2)

def width (s : String) : Nat :=
  if s.toList.all fun c => c.toNat < 128 then s.length else (columns s.toList).1.toNat

end BlockGraph.Text
