import ByteRegex.Pattern.Error
import ByteRegex.Pattern.Token
import ByteRegex.Text.Split
import ByteRegex.Text.Utf8

/-! A pattern cut into tokens, from the left and without looking beyond a token. A class runs to the
first `]` and a quantifier to the first closing brace, so neither can be nested. The list ends with
the one `finish` token. -/

namespace ByteRegex

namespace Token

def shorthand? : Char → Option String
  | 'd' => some "[0-9]"
  | 'D' => some "[^0-9]"
  | 'w' => some "[A-Za-z0-9_]"
  | 'W' => some "[^A-Za-z0-9_]"
  | 's' => some "[ \t\r\n\x0c]"
  | 'S' => some "[^ \t\r\n\x0c]"
  | _ => none

def ofEscaped (c : Char) : Token :=
  match shorthand? c with
  | some text => operand (.charClass text)
  | none => operand (.literal c)

def ofChar : Char → Token
  | '*' => repetition .star
  | '+' => repetition .plus
  | '?' => repetition .option
  | '(' => groupOpen
  | ')' => groupClose
  | '|' => alternation
  | '^' => operand (.anchor .textStart)
  | '$' => operand (.anchor .textEnd)
  | '.' => operand .wildcard
  | c => operand (.literal c)

def ofClass (inside : List Char) : Token :=
  operand (.charClass (String.ofList ('[' :: inside ++ [']'])))

def ofBounds (inside : List Char) : Token :=
  quantifier (String.ofList ('\x7b' :: inside ++ ['\x7d']))

def isBound (c : Char) : Bool :=
  c.isDigit || c = ','

/-- The tokens of the rest of a pattern that begins at the byte `offset`. -/
def scan (offset : Nat) : List Char → Except PatternError (List Token)
  | [] => .ok [finish]
  | '\\' :: rest =>
    match rest with
    | [] => .error ⟨.trailingEscape, some offset⟩
    | c :: rest => (scan (offset + 1 + c.utf8Size) rest).map (ofEscaped c :: ·)
  | '[' :: rest =>
    match closed : splitAt? ']' rest with
    | none => .error ⟨.unclosedClass, some offset⟩
    | some (inside, rest') =>
      (scan (offset + 2 + Utf8.size inside) rest').map (ofClass inside :: ·)
  | '\x7b' :: rest =>
    match closed : splitAt? '\x7d' rest with
    | none => .error ⟨.malformedQuantifier, some offset⟩
    | some (inside, rest') =>
      if inside.all isBound then
        (scan (offset + 2 + Utf8.size inside) rest').map (ofBounds inside :: ·)
      else
        .error ⟨.malformedQuantifier, some (offset + 1 + Utf8.size (inside.takeWhile isBound))⟩
  | c :: rest => (scan (offset + c.utf8Size) rest).map (ofChar c :: ·)
termination_by cs => cs.length
decreasing_by
  · simp only [List.length_cons]; omega
  · exact Nat.lt_succ_of_lt (length_of_splitAt? closed)
  · exact Nat.lt_succ_of_lt (length_of_splitAt? closed)
  · simp only [List.length_cons]; omega

def ofPattern (pattern : String) : Except PatternError (List Token) :=
  scan 0 pattern.toList

end Token

end ByteRegex
