import ByteRegex.Text.Quoted

/-! The two ways to search, and a caller's choice between them. -/

namespace ByteRegex

/-- Simulate the automaton, or fill in a table of its transitions. -/
inductive Strategy
  | nfa
  | dfa
  deriving DecidableEq

inductive StrategyChoice
  | auto
  | dfa
  | nfa
  deriving DecidableEq

structure UnknownChoice where
  given : String
  deriving DecidableEq

def Strategy.name : Strategy → String
  | nfa => "NFA"
  | dfa => "DFA"

def UnknownChoice.message (e : UnknownChoice) : String :=
  "unrecognized strategy " ++ Quoted.string e.given ++ ", expected one of auto, dfa or nfa"

namespace StrategyChoice

def name : StrategyChoice → String
  | auto => "auto"
  | dfa => "dfa"
  | nfa => "nfa"

/-- The choice with the given name. The case of ASCII letters does not matter. -/
def ofName (name : String) : Except UnknownChoice StrategyChoice :=
  let lower := name.toList.map Char.toLower
  match [auto, dfa, nfa].find? fun choice => choice.name.toList == lower with
  | some choice => .ok choice
  | none => .error ⟨name⟩

end StrategyChoice

end ByteRegex
