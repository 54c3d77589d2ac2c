import ByteRegex.Automaton.Listing

/-! The drawing of an automaton in the DOT language. The accepting node has a double circle. An edge
is labelled with what its node reads or asks for, and the edges of a split with `ε`, the first solid
and the second dashed. Quotes and backslashes in a label are written with a backslash. -/

namespace ByteRegex

structure Edge where
  source : Nat
  target : Nat
  label : String
  dashed : Bool
  deriving DecidableEq

namespace Edge

def escape (label : List Char) : List Char :=
  label.flatMap fun c => if c = '\x22' || c = '\\' then ['\\', c] else [c]

def line (e : Edge) : String :=
  "  " ++ toString e.source ++ " -> " ++ toString e.target ++ " [label=\"" ++
    String.ofList (escape e.label.toList) ++ "\"" ++ (if e.dashed then ", style=dashed" else "") ++
    "];"

end Edge

namespace Node

def edges (id : Nat) : Node Nat → List Edge
  | consume label next => [⟨id, next, label.display, false⟩]
  | split first second => [⟨id, first, "ε", false⟩, ⟨id, second, "ε", true⟩]
  | require .textStart next => [⟨id, next, "^", false⟩]
  | require .textEnd next => [⟨id, next, "$", false⟩]
  | accept => []

/-- The lines that draw a node: its edges, or its shape if it accepts. -/
def graphLines (id : Nat) (n : Node Nat) : List String :=
  match n with
  | accept => ["  " ++ toString id ++ " [shape=doublecircle];"]
  | _ => (n.edges id).map Edge.line

end Node

namespace Automaton

def edges (m : Automaton) : List Edge :=
  m.nodes.toList.zipIdx.flatMap fun (node, id) => node.edges id

def graphLines (m : Automaton) : List String :=
  ["digraph nfa \x7b", "  rankdir=LR;", "  node [shape=circle];", "  start [shape=point];",
    "  start -> " ++ toString m.start ++ ";"] ++
  m.nodes.toList.zipIdx.flatMap (fun (node, id) => node.graphLines id) ++ ["\x7d"]

def graph (m : Automaton) : String :=
  String.join (m.graphLines.map (· ++ "\n"))

end Automaton

end ByteRegex
