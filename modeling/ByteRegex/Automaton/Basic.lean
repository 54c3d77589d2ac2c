import ByteRegex.ByteSet
import ByteRegex.Pattern.Token

/-! Automata over bytes. A node reads one byte, or passes on without reading: to both targets of a
split, or through an anchor where it holds. A haystack is accepted when some run that starts at the
start node has read all of it in the accepting node. -/

namespace ByteRegex

inductive Label
  | byte (b : UInt8)
  | set (s : ByteSet)
  deriving DecidableEq

/-- A node with targets of type `τ`. -/
inductive Node (τ : Type)
  | consume (label : Label) (next : τ)
  | split (first second : τ)
  | require (anchor : Anchor) (next : τ)
  | accept
  deriving DecidableEq

structure Automaton where
  nodes : Array (Node Nat)
  start : Nat
  accept : Nat
  deriving DecidableEq

def Label.accepts : Label → UInt8 → Bool
  | byte b, c => b == c
  | set s, c => s.contains c

namespace Node

def isSilent {τ : Type} : Node τ → Bool
  | consume _ _ => false
  | accept => false
  | split _ _ => true
  | require _ _ => true

def move? {τ : Type} (n : Node τ) (b : UInt8) : Option τ :=
  match n with
  | consume label next => if label.accepts b then some next else none
  | _ => none

def targets {τ : Type} : Node τ → List τ
  | consume _ next => [next]
  | split first second => [first, second]
  | require _ next => [next]
  | accept => []

end Node

def Automaton.size (m : Automaton) : Nat :=
  m.nodes.size

end ByteRegex
