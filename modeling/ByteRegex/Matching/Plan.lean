import ByteRegex.Matching.Heuristic
import ByteRegex.Matching.Literal
import ByteRegex.Search.LazyMatcher

/-! The settings of a regular expression, and the plan that follows from them: how it searches, and
why. -/

namespace ByteRegex

structure Settings where
  strategy : StrategyChoice := .auto
  matchMode : MatchMode := .full
  heuristic : Heuristic := {}
  volume : Volume := {}
  /-- The greatest count of automaton nodes. -/
  nodeLimit : Option Nat := none
  /-- The greatest count of table rows. -/
  rowLimit : Option Nat := LazyTable.defaultRowLimit
  /-- Whether patterns that are only text are compared as text. -/
  literalSearch : Bool := true
  deriving DecidableEq

namespace Settings

/-- Settings that may be left open. Those that are made later overwrite earlier ones. -/
structure Options where
  strategy : Option StrategyChoice := none
  matchMode : Option MatchMode := none
  heuristic : Option Heuristic := none
  volume : Option Volume := none
  nodeLimit : Option (Option Nat) := none
  rowLimit : Option (Option Nat) := none
  literalSearch : Option Bool := none

namespace Options

def overwrite (o later : Options) : Options where
  strategy := later.strategy.or o.strategy
  matchMode := later.matchMode.or o.matchMode
  heuristic := later.heuristic.or o.heuristic
  volume := later.volume.or o.volume
  nodeLimit := later.nodeLimit.or o.nodeLimit
  rowLimit := later.rowLimit.or o.rowLimit
  literalSearch := later.literalSearch.or o.literalSearch

def settings (o : Options) : Settings :=
  let default : Settings := {}
  { strategy := o.strategy.getD default.strategy
    matchMode := o.matchMode.getD default.matchMode
    heuristic := o.heuristic.getD default.heuristic
    volume := o.volume.getD default.volume
    nodeLimit := o.nodeLimit.getD default.nodeLimit
    rowLimit := o.rowLimit.getD default.rowLimit
    literalSearch := o.literalSearch.getD default.literalSearch }

theorem overwrite_assoc (o later last : Options) :
    (o.overwrite later).overwrite last = o.overwrite (later.overwrite last) := by
  simp [overwrite, Option.or_assoc]

theorem overwrite_open (o : Options) : o.overwrite {} = o := by
  simp [overwrite]

end Options

end Settings

structure Plan where
  literal : Bool
  strategy : Strategy
  explanation : String
  deriving DecidableEq

namespace Plan

def make (s : Settings) (complexity : Complexity) (literal : Bool) (volume : Volume) : Plan :=
  match s.strategy with
  | .auto =>
    ⟨literal, s.heuristic.choose complexity volume, s.heuristic.explain complexity volume⟩
  | .dfa => ⟨literal, .dfa, "DFA: selected explicitly"⟩
  | .nfa => ⟨literal, .nfa, "NFA: selected explicitly"⟩

def display (p : Plan) : String :=
  if p.literal then "fast path (literal string matching)" else p.explanation

end Plan

end ByteRegex
