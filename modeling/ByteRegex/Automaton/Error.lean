import ByteRegex.Automaton.NodeId
import ByteRegex.Pattern.Error

/-! Why no automaton could be built. Malformed symbols and dangling or doubly filled targets are
internal: the symbols of an expression never lead to them. -/

namespace ByteRegex

inductive BuildError
  /-- The pattern is malformed. -/
  | pattern (error : PatternError)
  /-- At least `given` nodes are needed, which is more than the limit. -/
  | tooManyNodes (given limit : Nat)
  /-- The symbols left `fragments` expressions instead of one. -/
  | malformedSymbols (fragments : Nat)
  /-- A target of the node was never filled in. -/
  | danglingTarget (node : Nat)
  /-- A target of the node was to be filled in that it does not have or that was filled in before. -/
  | filledTarget (node : Nat)
  deriving DecidableEq

namespace BuildError

def patternError? : BuildError → Option PatternError
  | pattern error => some error
  | _ => none

def limit? : BuildError → Option Nat
  | tooManyNodes _ limit => some limit
  | _ => none

def isInternal : BuildError → Bool
  | malformedSymbols _ => true
  | danglingTarget _ => true
  | filledTarget _ => true
  | _ => false

def message : BuildError → String
  | pattern _ => "error parsing regex"
  | tooManyNodes given limit =>
    "attempted to compile " ++ toString given ++ " NFA states, which exceeds the limit of " ++
      toString limit
  | malformedSymbols fragments =>
    "internal error: postfix expression reduced to " ++ toString fragments ++
      " fragments instead of 1"
  | danglingTarget node =>
    "internal error: NFA state " ++ toString node ++ " has an unpatched transition"
  | filledTarget node =>
    "internal error: NFA state " ++ toString node ++ " has no unpatched transition"

/-- The messages of the errors behind this one, outermost first. -/
def sources : BuildError → List String
  | pattern error => [error.message]
  | _ => []

/-- A fault found among tokens, under the limit on nodes that was set. Writing out more than the
limit allows is an error about nodes and not about the pattern. -/
def ofFault (limit : Option Nat) (fault : Fault) : BuildError :=
  match fault, limit with
  | .expansionTooLarge, some limit => tooManyNodes (limit + 1) limit
  | _, _ => pattern (.ofFault fault)

end BuildError

end ByteRegex
