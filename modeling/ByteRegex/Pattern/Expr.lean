import ByteRegex.Pattern.Conversion

/-! Expressions, the meaning of a pattern as a tree, and the symbols that list a tree with every
operator after its operands. -/

namespace ByteRegex

inductive Expr
  | operand (item : Operand)
  | repeated (op : Repetition) (body : Expr)
  | concat (left right : Expr)
  | alternate (left right : Expr)
  deriving DecidableEq

namespace Expr

def symbols : Expr → List Symbol
  | operand item => [.operand item]
  | repeated op body => body.symbols ++ [.repetition op]
  | concat left right => left.symbols ++ right.symbols ++ [.concat]
  | alternate left right => left.symbols ++ right.symbols ++ [.alternate]

@[simp] theorem symbols_operand (item : Operand) : (operand item).symbols = [.operand item] := rfl

@[simp] theorem symbols_repeated (op : Repetition) (body : Expr) :
    (repeated op body).symbols = body.symbols ++ [.repetition op] := rfl

@[simp] theorem symbols_concat (left right : Expr) :
    (concat left right).symbols = left.symbols ++ right.symbols ++ [.concat] := rfl

@[simp] theorem symbols_alternate (left right : Expr) :
    (alternate left right).symbols = left.symbols ++ right.symbols ++ [.alternate] := rfl

end Expr

end ByteRegex
