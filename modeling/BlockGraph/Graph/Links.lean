import BlockGraph.Error
import BlockGraph.Graph.Slots

/-!
Links between sockets.

Links have numbers, and a number is used again after its link has been removed.  They are kept with
the newest first, since of several links at a socket the newest is the one that counts.
-/

namespace BlockGraph

structure Link where
  output : SocketId
  input : SocketId
  deriving DecidableEq

structure Links where
  /-- The links with their numbers, the newest first. -/
  entries : List (Nat × Link) := []
  numbers : Numbering := {}

namespace Links

def newestFirst (ls : Links) : List Link :=
  ls.entries.map Prod.snd

def byNumber (ls : Links) : List Link :=
  (ls.entries.foldl (fun list e => Slots.put e.1 e.2 list) []).map Prod.snd

def insert (ls : Links) (l : Link) : Links :=
  ⟨(ls.numbers.take.1, l) :: ls.entries, ls.numbers.take.2⟩

def remove (ls : Links) (k : Nat) : Links :=
  ⟨ls.entries.filter fun e => e.1 ≠ k, ls.numbers.giveBack k⟩

/-- Where the links from an output lead, the newest first. -/
def inputsOf (ls : Links) (s : SocketId) : List SocketId :=
  ls.entries.filterMap fun e => if e.2.output = s then some e.2.input else none

/-- Where the links to an input come from, the newest first. -/
def outputsOf (ls : Links) (s : SocketId) : List SocketId :=
  ls.entries.filterMap fun e => if e.2.input = s then some e.2.output else none

/-- The numbers of the links at a socket: the outgoing ones first, and of each kind the newest
first. -/
def numbersAt (ls : Links) (s : SocketId) : List Nat :=
  ((ls.entries.filter fun e => e.2.output = s) ++
    ls.entries.filter fun e => e.2.input = s && e.2.output ≠ s).map Prod.fst

/-- The number of the newest link from an output to an input. -/
def numberOf? (ls : Links) (l : Link) : Option Nat :=
  (ls.entries.find? fun e => e.2 = l).map Prod.fst

theorem mem_newestFirst_insert (ls : Links) (l m : Link) :
    m ∈ (ls.insert l).newestFirst ↔ m = l ∨ m ∈ ls.newestFirst := by
  simp [newestFirst, insert]

end Links

end BlockGraph
