import ByteRegex.Matching.Compiled
import ByteRegex.Matching.Lines
import ByteRegex.Matching.Plan
import ByteRegex.Search.LazyMatcher
import ByteRegex.Search.Simulation

/-! Regular expressions ready for searching. The pattern, its automaton and the plan never change.
What searches leave behind for later ones is kept apart in a memory, which all copies of a regular
expression share, and no answer depends on it.

A table that is full is given up for an empty one, and the search at hand is done by simulation. -/

namespace ByteRegex

structure Regex where
  settings : Settings
  pattern : CompiledPattern
  /-- Whether searches compare texts. -/
  literal : Bool
  plan : Plan

/-- What searches leave behind. -/
structure Regex.Memory where
  simulation : Simulation.Cache
  table : LazyTable

namespace Settings

def construction (s : Settings) : Construction where
  sizeLimit := s.nodeLimit
  unanchored := s.matchMode == .substring

end Settings

namespace Regex

def ofText (s : Settings) (text : String) : Except CompileError Regex := do
  let pattern ← CompiledPattern.ofText s.construction text
  let literal := s.literalSearch && Literal.isLiteral text
  return ⟨s, pattern, literal, .make s pattern.complexity literal s.volume⟩

def automaton (r : Regex) : Automaton :=
  r.pattern.automaton

def matcher (r : Regex) : LazyMatcher :=
  ⟨r.automaton, r.settings.rowLimit⟩

def newMemory (r : Regex) : Memory :=
  ⟨.ofAutomaton r.automaton, .ofAutomaton r.automaton⟩

def planFor (r : Regex) (volume : Volume) : Plan :=
  .make r.settings r.pattern.complexity r.literal volume

/-- Searches by simulation. The memory was made for this automaton, so the search does not break
off. -/
def simulate (r : Regex) : Memory → List UInt8 → Bool × Memory
  | ⟨simulation, table⟩, haystack =>
    let (answer, simulation) := Simulation.search r.automaton simulation haystack
    (answer == some true, ⟨simulation, table⟩)

/-- Searches with the table, or by simulation if the table is full. -/
def tabulate (r : Regex) : Memory → List UInt8 → Bool × Memory
  | ⟨simulation, table⟩, haystack =>
    match r.matcher.search table haystack with
    | (.ok answer, table) => (answer, ⟨simulation, table⟩)
    | (.error _, _) => r.simulate ⟨simulation, r.matcher.newTable⟩ haystack

def matchUsing (r : Regex) (strategy : Strategy) (memory : Memory) (haystack : List UInt8) :
    Bool × Memory :=
  match strategy with
  | .nfa => r.simulate memory haystack
  | .dfa => r.tabulate memory haystack

def isMatch (find : Finder) (r : Regex) (memory : Memory) (haystack : List UInt8) : Bool × Memory :=
  if r.literal then
    (Literal.isMatch find r.settings.matchMode (Utf8.ofString r.pattern.text) haystack, memory)
  else r.matchUsing r.plan.strategy memory haystack

def matchingLines (search : Memory → List UInt8 → Bool × Memory) (memory : Memory)
    (haystack : List UInt8) : List Nat × Memory :=
  let visit := fun (found : List Nat × Memory) (entry : List UInt8 × Nat) =>
    let (yes, memory) := search found.2 entry.1
    (if yes then entry.2 :: found.1 else found.1, memory)
  let (found, memory) := ((splitLines haystack).zipIdx 1).foldl visit ([], memory)
  (found.reverse, memory)

def memoryUse (memory : Memory) : Nat :=
  memory.table.memory

end Regex

end ByteRegex
