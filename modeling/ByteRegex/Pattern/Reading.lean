import ByteRegex.Pattern.Expr

/-! Expressions read off tokens in one pass, the tree that a conversion lists. Repetition binds closest,
then concatenation to the left, then alternation to the right. Reading ends at the first `finish` token
or with the tokens. -/

namespace ByteRegex

/-- One branch of an alternation, as far as it is read. The last item stays apart, because a
repetition may still follow it. -/
inductive Branch
  | empty
  | single (last : Expr)
  | joined (before last : Expr)

namespace Branch

def push : Branch → Expr → Branch
  | empty, e => single e
  | single last, e => joined last e
  | joined before last, e => joined (.concat before last) e

def repeatLast? (op : Repetition) : Branch → Option Branch
  | empty => none
  | single last => some (single (.repeated op last))
  | joined before last => some (joined before (.repeated op last))

def expr? : Branch → Option Expr
  | empty => none
  | single last => some last
  | joined before last => some (.concat before last)

end Branch

/-- One level of grouping: the branches before the current one, latest first, and that one. -/
structure Level where
  branches : List Expr
  branch : Branch

namespace Level

def start : Level :=
  ⟨[], .empty⟩

def push (l : Level) (e : Expr) : Level :=
  { l with branch := l.branch.push e }

def repeatLast? (op : Repetition) (l : Level) : Option Level :=
  (l.branch.repeatLast? op).map fun branch => { l with branch }

def nextBranch? (l : Level) : Option Level :=
  l.branch.expr?.map fun e => ⟨e :: l.branches, .empty⟩

/-- The expression of a level that ends here. An empty level without other branches is the fault
given, and an empty branch after others is an empty alternation. -/
def close (ifEmpty : Fault) (l : Level) : Except Fault Expr :=
  match l.branch.expr? with
  | some e => .ok (l.branches.foldl (fun right left => .alternate left right) e)
  | none => .error (if l.branches.isEmpty then ifEmpty else .emptyAlternation)

end Level

namespace Expr

def atEnd (enclosing : List Level) (level : Level) : Except Fault Expr :=
  if enclosing.isEmpty then level.close .emptyPattern else .error .unbalancedGroup

/-- Reads on inside a level and those that enclose it, innermost first. -/
def read (enclosing : List Level) (level : Level) : List Token → Except Fault Expr
  | [] => atEnd enclosing level
  | .finish :: _ => atEnd enclosing level
  | .operand item :: rest => read enclosing (level.push (.operand item)) rest
  | .repetition op :: rest =>
    match level.repeatLast? op with
    | none => .error .danglingOperator
    | some level => read enclosing level rest
  | .quantifier _ :: _ =>
    match level.branch with
    | .empty => .error .danglingOperator
    | _ => .error .unexpandedQuantifier
  | .groupOpen :: rest => read (level :: enclosing) .start rest
  | .groupClose :: rest =>
    match enclosing with
    | [] => .error .unbalancedGroup
    | outer :: enclosing =>
      match level.close .emptyGroup with
      | .error fault => .error fault
      | .ok e => read enclosing (outer.push e) rest
  | .alternation :: rest =>
    match level.nextBranch? with
    | none => .error .emptyAlternation
    | some level => read enclosing level rest

def ofTokens (ts : List Token) : Except Fault Expr :=
  read [] .start ts

def ofQuantified (limit : Option Nat) (ts : List Token) : Except Fault Expr :=
  if ts.any Token.isQuantifier then (expand limit ts).bind ofTokens else ofTokens ts

end Expr

end ByteRegex
