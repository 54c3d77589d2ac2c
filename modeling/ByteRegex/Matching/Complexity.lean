import ByteRegex.Pattern.Token

/-! How demanding a pattern is, judged by its tokens before quantifiers are written out. -/

namespace ByteRegex

structure Complexity where
  quantifiers : Bool
  alternation : Bool
  wildcards : Bool
  classes : Bool
  groups : Bool
  /-- The number of tokens, the last `finish` included. -/
  tokenCount : Nat
  deriving DecidableEq

namespace Complexity

def hasKind (ts : List Token) (kind : Token.Kind) : Bool :=
  ts.any fun t => t.kind == kind

def ofTokens (ts : List Token) : Complexity where
  quantifiers := hasKind ts .quantifier
  alternation := hasKind ts .alternation
  wildcards := hasKind ts .wildcard
  classes := hasKind ts .charClass
  groups := hasKind ts .groupOpen
  tokenCount := ts.length

/-- Whether the pattern goes beyond literals, wildcards, anchors and repetitions. -/
def isComplex (c : Complexity) : Bool :=
  c.quantifiers || c.alternation || c.classes || c.groups

end Complexity

end ByteRegex
