import ByteRegex.Pattern.Error
import ByteRegex.Text.Split

/-! The bounds of a quantifier, read from its text. One number is a least count without a greatest,
which is also what a number and a comma mean. A numeral may begin with a plus sign, and its value
has to fit in 64 bits. -/

namespace ByteRegex

/-- How often an atom is repeated: at least `least` times, and at most `most` times if that is
given. -/
structure Bounds where
  least : Nat
  most : Option Nat
  ordered : ∀ m, most = some m → least ≤ m

namespace Bounds

def atLeast (least : Nat) : Bounds :=
  ⟨least, none, fun _ h => nomatch h⟩

def between? (least most : Nat) : Option Bounds :=
  if h : least ≤ most then some ⟨least, some most, fun _ e => Option.some.inj e ▸ h⟩ else none

def digitsValue (ds : List Char) : Nat :=
  ds.foldl (fun n d => 10 * n + (d.toNat - 48)) 0

def valueLimit : Nat := 0x10000000000000000

def number? (cs : List Char) : Option Nat :=
  let ds := match cs with
    | '+' :: rest => rest
    | _ => cs
  if ds ≠ [] ∧ ds.all Char.isDigit ∧ digitsValue ds < valueLimit then some (digitsValue ds) else none

def ofChars? (cs : List Char) : Option Bounds :=
  match splitAt? ',' cs with
  | none => (number? cs).map atLeast
  | some (low, []) => (number? low).map atLeast
  | some (low, high) => do between? (← number? low) (← number? high)

def unbrace? : List Char → Option (List Char)
  | '\x7b' :: rest => if rest.getLast? = some '\x7d' then some rest.dropLast else none
  | _ => none

def ofText (text : String) : Except Fault Bounds :=
  match (unbrace? text.toList).bind ofChars? with
  | some bounds => .ok bounds
  | none => .error .malformedQuantifier

end Bounds

end ByteRegex
