import ByteRegex.Search.Closure
import ByteRegex.Search.RowId
import Std.Data.TreeMap

/-! The table of a deterministic search. Each row belongs to a set of automaton nodes and has a cell
for every byte, which is unknown until it is first needed. The cells of all rows are one list, row by
row, and the sets are another. Equal sets share a row, and row 0 belongs to the empty set, which is
never left. -/

namespace ByteRegex

structure LazyTable where
  cells : Array RowId
  /-- The ascending nodes that each row belongs to. -/
  sets : Array (List Nat)
  index : Std.TreeMap (List Nat) RowId
  /-- The first row, and whether the empty haystack is accepted. -/
  start : Option (RowId × Bool)
  stack : Stack
  current : NodeSet
  scratch : NodeSet
  /-- The space that sorting the members of a set has taken. -/
  sortSpace : Nat

inductive LazyTable.Failure
  /-- The table is full. It may not have more rows than `limit`. -/
  | full (limit : Nat)
  /-- The table was made for another automaton. -/
  | foreign
  deriving DecidableEq

namespace LazyTable

def Failure.message : Failure → String
  | full limit =>
    "lazy DFA cache is full, it already holds the maximum of " ++ toString limit ++ " states"
  | foreign => "the table belongs to another automaton"

def ofAutomaton (m : Automaton) : LazyTable where
  cells := Array.replicate 256 .ofEmpty
  sets := #[[]]
  index := (∅ : Std.TreeMap (List Nat) RowId).insert [] .ofEmpty
  start := none
  stack := .empty
  current := .ofSize m.size
  scratch := .ofSize m.size
  sortSpace := 0

def size (t : LazyTable) : Nat :=
  t.sets.size

def cell? (t : LazyTable) (id : RowId) (b : UInt8) : Option RowId :=
  t.cells[id.place + b.toNat]?

def setCell (t : LazyTable) (id : RowId) (b : UInt8) (next : RowId) : LazyTable :=
  { t with cells := t.cells.setIfInBounds (id.place + b.toNat) next }

/-- Appends the row of a set, of which no cell is known. -/
def withRow (t : LazyTable) (set : List Nat) (id : RowId) : LazyTable :=
  { t with
    cells := t.cells ++ Array.replicate 256 .unknown
    sets := t.sets.push set
    index := t.index.insert set id }

def memory (t : LazyTable) : Nat :=
  4 * t.cells.size + 36 * t.size + NodeId.width * (t.sets.foldl (fun n set => n + set.length) 0) +
    (t.current.memory + t.scratch.memory) + t.stack.memory + NodeId.width * t.sortSpace

/-- The space after a list of `n` nodes was sorted. It is doubled when it is too small. -/
def grow (space n : Nat) : Nat :=
  if n ≤ space then space else max 4 (max (2 * space) n)

end LazyTable

end ByteRegex
