import ByteRegex.Pattern.Error
import ByteRegex.Pattern.Expansion

/-! Tokens rewritten into symbols, with every operator after its operands. The conversion keeps no tree.
It counts, for each level of grouping, the operands that wait to be joined and the bars before them. At
most two operands wait: a third one has the first two joined. A group saves both numbers when it opens,
and counts as one operand when it closes. The conversion ends at the first `finish` token or with the
tokens. -/

namespace ByteRegex

/-- One entry of an expression in operand-first order. -/
inductive Symbol
  | operand (item : Operand)
  | repetition (op : Repetition)
  | concat
  | alternate
  deriving DecidableEq

/-- How far a conversion has come. The symbols are latest first, and so are the bars and the waiting
operands of the levels that enclose the present one. -/
structure Conversion where
  symbols : List Symbol
  waiting : Nat
  bars : Nat
  enclosing : List (Nat × Nat)

namespace Conversion

def start : Conversion :=
  ⟨[], 0, 0, []⟩

/-- Symbols, latest first, with the waiting operands joined, and the result with an operand for each
bar. -/
def flush (waiting bars : Nat) (symbols : List Symbol) : List Symbol :=
  List.replicate bars .alternate ++ (List.replicate (waiting - 1) .concat ++ symbols)

def join (c : Conversion) : Conversion :=
  if c.waiting > 1 then { c with symbols := .concat :: c.symbols, waiting := c.waiting - 1 } else c

def push (c : Conversion) (item : Operand) : Conversion :=
  let c := c.join
  { c with symbols := .operand item :: c.symbols, waiting := c.waiting + 1 }

def repeatLast? (op : Repetition) (c : Conversion) : Option Conversion :=
  if c.waiting = 0 then none else some { c with symbols := .repetition op :: c.symbols }

def openGroup (c : Conversion) : Conversion :=
  let c := c.join
  { c with enclosing := (c.bars, c.waiting) :: c.enclosing, bars := 0, waiting := 0 }

def nextBranch? (c : Conversion) : Option Conversion :=
  if c.waiting = 0 then none
  else some { c with symbols := flush c.waiting 0 c.symbols, bars := c.bars + 1, waiting := 0 }

/-- The symbols when a level ends. A level without operands is the fault given, or an empty alternation
after a bar. -/
def close (ifEmpty : Fault) (c : Conversion) : Except Fault (List Symbol) :=
  if c.waiting = 0 then .error (if c.bars > 0 then .emptyAlternation else ifEmpty)
  else .ok (flush c.waiting c.bars c.symbols)

def closeGroup (c : Conversion) : Except Fault Conversion :=
  match c.enclosing with
  | [] => .error .unbalancedGroup
  | (bars, waiting) :: enclosing =>
    (c.close .emptyGroup).map fun symbols => ⟨symbols, waiting + 1, bars, enclosing⟩

def atEnd (c : Conversion) : Except Fault (List Symbol) :=
  if c.enclosing.isEmpty then (c.close .emptyPattern).map List.reverse else .error .unbalancedGroup

def run (c : Conversion) : List Token → Except Fault (List Symbol)
  | [] => c.atEnd
  | .finish :: _ => c.atEnd
  | .operand item :: rest => (c.push item).run rest
  | .repetition op :: rest =>
    match c.repeatLast? op with
    | none => .error .danglingOperator
    | some c => c.run rest
  | .quantifier _ :: _ => .error (if c.waiting = 0 then .danglingOperator else .unexpandedQuantifier)
  | .groupOpen :: rest => c.openGroup.run rest
  | .groupClose :: rest =>
    match c.closeGroup with
    | .error fault => .error fault
    | .ok c => c.run rest
  | .alternation :: rest =>
    match c.nextBranch? with
    | none => .error .emptyAlternation
    | some c => c.run rest

end Conversion

namespace Symbol

def ofTokens (ts : List Token) : Except Fault (List Symbol) :=
  Conversion.start.run ts

/-- The symbols of any tokens. Quantifiers are written out first, within the limit on automaton
nodes. -/
def ofQuantified (limit : Option Nat) (ts : List Token) : Except Fault (List Symbol) :=
  if ts.any Token.isQuantifier then (expand limit ts).bind ofTokens else ofTokens ts

end Symbol

end ByteRegex
