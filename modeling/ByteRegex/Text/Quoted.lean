/-! Text in quotes, as diagnostics show it. The closing quote and the backslash carry a backslash,
four control characters have a short name, every other control character is written by its
hexadecimal number, and all else stands for itself. -/

namespace ByteRegex.Quoted

def isControl (c : Char) : Bool :=
  c.toNat < 0x20 || (0x7f ≤ c.toNat && c.toNat < 0xa0)

def escape (quote c : Char) : List Char :=
  if c = quote || c = '\\' then ['\\', c]
  else if c = '\t' then ['\\', 't']
  else if c = '\r' then ['\\', 'r']
  else if c = '\n' then ['\\', 'n']
  else if c = '\x00' then ['\\', '0']
  else if isControl c then ['\\', 'u', '\x7b'] ++ Nat.toDigits 16 c.toNat ++ ['\x7d']
  else [c]

def string (s : String) : String :=
  String.ofList (['\x22'] ++ s.toList.flatMap (escape '\x22') ++ ['\x22'])

def char (c : Char) : String :=
  String.ofList (['\x27'] ++ escape '\x27' c ++ ['\x27'])

end ByteRegex.Quoted
