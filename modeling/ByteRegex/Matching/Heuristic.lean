import ByteRegex.Matching.Complexity
import ByteRegex.Matching.Strategy

/-! Which strategy suits a pattern and an amount of input. A table costs something to fill in, which
pays when many lines are searched or when the pattern is small. -/

namespace ByteRegex

/-- What is known of the input: its size in bytes, and its number of lines. -/
structure Volume where
  fileSize : Option Nat := none
  lineCount : Option Nat := none
  deriving DecidableEq

structure Heuristic where
  /-- More lines than these are many. -/
  minLines : Nat := 50
  /-- More tokens than these are too many for a table. -/
  maxTokens : Nat := 10
  /-- The bytes of an average line. Zero counts as one. -/
  lineSize : Nat := 60
  deriving DecidableEq

inductive Reason
  | singleLine
  | manyLines (lines : Nat)
  | alternation
  | manyTokens (count : Nat)
  | smallPattern
  deriving DecidableEq

namespace Reason

def strategy : Reason → Strategy
  | singleLine => .nfa
  | manyLines _ => .dfa
  | alternation => .nfa
  | manyTokens _ => .nfa
  | smallPattern => .dfa

def explanation : Reason → String
  | singleLine => "single line input, avoiding DFA construction cost"
  | manyLines lines =>
    "about " ++ toString lines ++ " lines with a simple pattern, amortizing DFA construction cost"
  | alternation => "pattern contains alternation, DFA construction too expensive"
  | manyTokens count =>
    "complex pattern with " ++ toString count ++ " tokens, avoiding expensive DFA construction"
  | smallPattern => "pattern is small enough that DFA states are cheap to build"

end Reason

namespace Heuristic

def bytesPerLine (h : Heuristic) : Nat :=
  max h.lineSize 1

def estimate (h : Heuristic) (fileSize : Nat) : Nat :=
  fileSize / h.bytesPerLine

/-- The number of lines, if anything is known about it. A given number counts more than a size. -/
def lines? (h : Heuristic) (v : Volume) : Option Nat :=
  v.lineCount <|> v.fileSize.map h.estimate

def reasonFor (h : Heuristic) (c : Complexity) (lines : Nat) : Reason :=
  if h.minLines < lines && !c.isComplex then .manyLines lines
  else if c.alternation then .alternation
  else if h.maxTokens < c.tokenCount then .manyTokens c.tokenCount
  else .smallPattern

def reason (h : Heuristic) (c : Complexity) (v : Volume) : Reason :=
  match h.lines? v with
  | some lines => if 1 < lines then h.reasonFor c lines else .singleLine
  | none => .singleLine

def choose (h : Heuristic) (c : Complexity) (v : Volume) : Strategy :=
  (h.reason c v).strategy

def explain (h : Heuristic) (c : Complexity) (v : Volume) : String :=
  let reason := h.reason c v
  reason.strategy.name ++ ": " ++ reason.explanation

end Heuristic

end ByteRegex
