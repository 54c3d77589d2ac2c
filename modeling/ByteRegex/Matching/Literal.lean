import ByteRegex.Text.Utf8

/-! Patterns that are only text. Such a pattern matches a haystack by plain comparison, without an
automaton. How bytes are found among others is left open. -/

namespace ByteRegex

inductive MatchMode
  | full
  | substring
  deriving DecidableEq

/-- A search for bytes that stand next to each other in a haystack, which gives their first place. -/
abbrev Finder :=
  List UInt8 → List UInt8 → Option Nat

namespace Finder

/-- Whether a finder finds bytes where they stand, and misses none. -/
structure Exact (find : Finder) : Prop where
  found : ∀ needle haystack i, find needle haystack = some i → needle <+: haystack.drop i
  missing : ∀ needle haystack, find needle haystack = none → ¬needle <:+: haystack

def trialFrom (place : Nat) (needle : List UInt8) : List UInt8 → Option Nat
  | [] => if needle.isEmpty then some place else none
  | b :: bytes =>
    if needle.isPrefixOf (b :: bytes) then some place else trialFrom (place + 1) needle bytes

def byTrial : Finder :=
  trialFrom 0

end Finder

namespace Literal

def metacharacters : List Char :=
  ['.', '*', '+', '?', '[', ']', '\x7b', '\x7d', '(', ')', '^', '$', '|', '\\']

/-- Whether a pattern only matches its own text. The empty pattern is malformed and matches
nothing. -/
def isLiteral (pattern : String) : Bool :=
  !pattern.isEmpty && pattern.toList.all fun c => !metacharacters.contains c

def isMatch (find : Finder) (mode : MatchMode) (needle haystack : List UInt8) : Bool :=
  match mode with
  | .full => haystack == needle
  | .substring => (find needle haystack).isSome

end Literal

end ByteRegex
