import ByteRegex.Automaton.Basic
import ByteRegex.Automaton.Error

/-! Automata under construction. A node is added before all of its targets are known, and an unknown
target is a hole until it is filled in. A draft without holes is finished. -/

namespace ByteRegex

/-- One of the targets of a node. Only a split has a second one. -/
inductive Exit
  | first
  | second
  deriving DecidableEq

structure Hole where
  node : Nat
  exit : Exit
  deriving DecidableEq

abbrev Draft := Array (Node (Option Nat))

namespace Node

def fill? (target : Nat) : Exit → Node (Option Nat) → Option (Node (Option Nat))
  | .first, consume label none => some (consume label (some target))
  | .first, require anchor none => some (require anchor (some target))
  | .first, split none second => some (split (some target) second)
  | .second, split first none => some (split first (some target))
  | _, _ => none

def finish? : Node (Option Nat) → Option (Node Nat)
  | consume label next => next.map (consume label)
  | require anchor next => next.map (require anchor)
  | split first second => do return split (← first) (← second)
  | accept => some accept

end Node

namespace Draft

def add (limit : Option Nat) (d : Draft) (node : Node (Option Nat)) : Except BuildError Draft :=
  match limit.filter (d.size + 1 > ·) with
  | some limit => .error (.tooManyNodes (d.size + 1) limit)
  | none =>
    match NodeId.check d.size with
    | .error _ => .error (.tooManyNodes (d.size + 1) NodeId.maxCount)
    | .ok _ => .ok (d.push node)

def fill (target : Nat) (d : Draft) (hole : Hole) : Except BuildError Draft :=
  match d[hole.node]?.bind (Node.fill? target hole.exit) with
  | some node => .ok (d.set! hole.node node)
  | none => .error (.filledTarget hole.node)

def fillAll (target : Nat) (d : Draft) (holes : List Hole) : Except BuildError Draft :=
  holes.foldlM (fill target) d

/-- Leads so many nodes, from the given one on, to the next of them each. -/
def link (d : Draft) (lo : Nat) : Nat → Except BuildError Draft
  | 0 => .ok d
  | n + 1 => do link (← d.fill (lo + 1) ⟨lo, .first⟩) (lo + 1) n

def finish (d : Draft) : Except BuildError (Array (Node Nat)) :=
  match d.mapM Node.finish? with
  | some nodes => .ok nodes
  | none => .error (.danglingTarget (d.findIdx fun node => node.finish?.isNone))

end Draft

end ByteRegex
