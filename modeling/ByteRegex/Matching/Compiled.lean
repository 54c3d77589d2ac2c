import ByteRegex.Automaton.Construction
import ByteRegex.Matching.Complexity

/-! A pattern with all that is made of it before any search: its tokens as they are written, how
demanding they are, and the automaton that both strategies search. -/

namespace ByteRegex

structure CompiledPattern where
  text : String
  tokens : List Token
  complexity : Complexity
  automaton : Automaton

inductive CompileError
  | tokens (error : PatternError)
  | automaton (error : BuildError)
  deriving DecidableEq

namespace CompileError

def message : CompileError → String
  | tokens _ => "error parsing pattern"
  | automaton _ => "error building NFA"

def sources : CompileError → List String
  | tokens error => [error.message]
  | automaton error => error.message :: error.sources

def patternError? : CompileError → Option PatternError
  | tokens error => some error
  | automaton error => error.patternError?

def limit? : CompileError → Option Nat
  | tokens _ => none
  | automaton error => error.limit?

def isInternal : CompileError → Bool
  | tokens _ => false
  | automaton error => error.isInternal

end CompileError

namespace CompiledPattern

def ofText (c : Construction) (text : String) : Except CompileError CompiledPattern :=
  match Token.ofPattern text with
  | .error e => .error (.tokens e)
  | .ok tokens =>
    match c.ofTokens tokens with
    | .error e => .error (.automaton e)
    | .ok automaton => .ok ⟨text, tokens, .ofTokens tokens, automaton⟩

end CompiledPattern

end ByteRegex
