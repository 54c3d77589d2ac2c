import ByteRegex.Text.Quoted

/-! The tokens of a pattern. Operands are what a single position of a pattern matches, and the other
tokens repeat, group or separate them. Every token has a text, which is its spelling in a pattern
except that a literal is shown without its escape. -/

namespace ByteRegex

inductive Anchor
  | textStart
  | textEnd
  deriving DecidableEq

inductive Repetition
  | star
  | plus
  | option
  deriving DecidableEq

inductive Operand
  | literal (c : Char)
  | charClass (text : String)
  | wildcard
  | anchor (place : Anchor)
  deriving DecidableEq

/-- The text of a quantifier includes its braces. -/
inductive Token
  | operand (item : Operand)
  | repetition (op : Repetition)
  | quantifier (text : String)
  | groupOpen
  | groupClose
  | alternation
  | finish
  deriving DecidableEq

namespace Repetition

def sign : Repetition → Char
  | star => '*'
  | plus => '+'
  | option => '?'

def ofChar? : Char → Option Repetition
  | '*' => some star
  | '+' => some plus
  | '?' => some option
  | _ => none

theorem ofChar?_sign (op : Repetition) : ofChar? op.sign = some op := by
  cases op <;> rfl

end Repetition

namespace Token

inductive Kind
  | literal
  | charClass
  | operator
  | groupOpen
  | groupClose
  | anchorStart
  | anchorEnd
  | quantifier
  | alternation
  | wildcard
  | finish
  deriving DecidableEq

def Kind.all : List Kind :=
  [.literal, .charClass, .operator, .groupOpen, .groupClose, .anchorStart, .anchorEnd,
    .quantifier, .alternation, .wildcard, .finish]

def Kind.name : Kind → String
  | literal => "Literal"
  | charClass => "CharClass"
  | operator => "Operator"
  | groupOpen => "GroupOpen"
  | groupClose => "GroupClose"
  | anchorStart => "AnchorStart"
  | anchorEnd => "AnchorEnd"
  | quantifier => "Quantifier"
  | alternation => "Alternation"
  | wildcard => "Wildcard"
  | finish => "End"

def kind : Token → Kind
  | operand (.literal _) => .literal
  | operand (.charClass _) => .charClass
  | operand .wildcard => .wildcard
  | operand (.anchor .textStart) => .anchorStart
  | operand (.anchor .textEnd) => .anchorEnd
  | repetition _ => .operator
  | quantifier _ => .quantifier
  | groupOpen => .groupOpen
  | groupClose => .groupClose
  | alternation => .alternation
  | finish => .finish

def text : Token → String
  | operand (.literal c) => String.singleton c
  | operand (.charClass text) => text
  | operand .wildcard => "."
  | operand (.anchor .textStart) => "^"
  | operand (.anchor .textEnd) => "$"
  | repetition op => String.singleton op.sign
  | quantifier text => text
  | groupOpen => "("
  | groupClose => ")"
  | alternation => "|"
  | finish => ""

def literal? : Token → Option Char
  | operand (.literal c) => some c
  | _ => none

/-- The form in diagnostics: the kind, and the text in quotes. -/
def display (t : Token) : String :=
  match t with
  | finish => t.kind.name
  | _ => t.kind.name ++ "(" ++ Quoted.string t.text ++ ")"

inductive Refusal
  | needsText (kind : Kind)
  | notRepetition (c : Char)
  deriving DecidableEq

def Refusal.message : Refusal → String
  | needsText kind => "token kind " ++ kind.name ++ " requires explicit text"
  | notRepetition c => Quoted.char c ++ " is not a repetition operator"

def ofKind : Kind → Except Refusal Token
  | .groupOpen => .ok groupOpen
  | .groupClose => .ok groupClose
  | .anchorStart => .ok (operand (.anchor .textStart))
  | .anchorEnd => .ok (operand (.anchor .textEnd))
  | .alternation => .ok alternation
  | .wildcard => .ok (operand .wildcard)
  | .finish => .ok finish
  | kind => .error (.needsText kind)

def ofSign (c : Char) : Except Refusal Token :=
  match Repetition.ofChar? c with
  | some op => .ok (repetition op)
  | none => .error (.notRepetition c)

theorem kind_of_ofKind {k : Kind} {t : Token} (h : ofKind k = .ok t) : t.kind = k := by
  cases k <;> cases h <;> rfl

end Token

end ByteRegex
