import ByteRegex.Automaton.Basic

/-! The listing of an automaton: one line a node, in the order of their numbers. The start node is
marked, and every other line tells what its node reads or asks for and where it leads. -/

namespace ByteRegex

def Label.display : Label → String
  | byte b => String.ofList (byteLabel b)
  | set s => String.ofList s.label

namespace Node

def display : Node Nat → String
  | consume label next => label.display ++ " => " ++ toString next
  | split first second => "split(" ++ toString first ++ ", " ++ toString second ++ ")"
  | require .textStart next => "StartText => " ++ toString next
  | require .textEnd next => "EndText => " ++ toString next
  | accept => "MATCH"

end Node

namespace Automaton

def sixDigits (n : Nat) : String :=
  let digits := toString n
  "".pushn '0' (6 - digits.length) ++ digits

def listingLine (m : Automaton) (node : Node Nat) (id : Nat) : String :=
  (if id = m.start then ">" else " ") ++ sixDigits id ++ ": " ++ node.display

def listingLines (m : Automaton) : List String :=
  m.nodes.toList.zipIdx.map fun (node, id) => m.listingLine node id

def listing (m : Automaton) : String :=
  String.join ((["thompson::NFA("] ++ m.listingLines ++ [")"]).map (· ++ "\n"))

end Automaton

end ByteRegex
