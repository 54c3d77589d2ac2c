import ByteRegex.Search.Closure

/-! An automaton simulated on a haystack, one byte at a time, with the set of nodes that are active.
Every anchor is decided on the spot, since the place in the haystack is known. A search stops when no
node is active any more.

The sets are kept between searches. A search may meet sets that were made for another automaton. If
they are too small it may break off without an answer. -/

namespace ByteRegex

namespace Simulation

structure Cache where
  stack : Stack
  /-- The active nodes after the byte read last. -/
  active : NodeSet
  /-- The active nodes before it. -/
  previous : NodeSet

namespace Cache

def ofAutomaton (m : Automaton) : Cache :=
  ⟨.empty, .ofSize m.size, .ofSize m.size⟩

def reset (c : Cache) (m : Automaton) : Cache :=
  ⟨c.stack.clear, .ofSize m.size, .ofSize m.size⟩

def memory (c : Cache) : Nat :=
  c.stack.memory + (c.active.memory + c.previous.memory)

def display (c : Cache) : String :=
  "Cache \x7b stack: [" ++ String.intercalate ", " (c.stack.left.reverse.map NodeId.display) ++
    "], sets: StateSets \x7b set1: " ++ c.active.display ++ ", set2: " ++ c.previous.display ++
    " \x7d \x7d"

end Cache

def verdict (m : Automaton) (c : Cache) : Option Bool :=
  c.active.marks[m.accept]?.map (· == c.active.era)

def run (m : Automaton) : Cache → List UInt8 → Option Bool × Cache
  | c, [] => (verdict m c, c)
  | ⟨stack, active, previous⟩, b :: bytes =>
    if active.members.isEmpty then (some false, ⟨stack, active, previous⟩)
    else
      let walk := m.advance (m.directClosure false bytes.isEmpty) b previous.clear stack active.members.toList
      if walk.finished then run m ⟨walk.stack, walk.set, active⟩ bytes
      else (none, ⟨walk.stack, active, walk.set⟩)

/-- Whether the automaton accepts the haystack, unless the search breaks off. -/
def search (m : Automaton) : Cache → List UInt8 → Option Bool × Cache
  | ⟨stack, active, previous⟩, haystack =>
    let walk := m.directClosure true haystack.isEmpty active.clear stack m.start
    let c : Cache := ⟨walk.stack, walk.set, previous.clear⟩
    if walk.finished then run m c haystack else (none, c)

end Simulation

def Automaton.accepts (m : Automaton) (haystack : List UInt8) : Bool :=
  (Simulation.search m (.ofAutomaton m) haystack).1 == some true

end ByteRegex
