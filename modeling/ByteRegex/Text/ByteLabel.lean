/-! The readable form of one byte, in listings of automata and byte sets. A visible ASCII character
stands for itself, the space is quoted so that it can be seen, and a byte without a sign of its own
is written in hexadecimal. -/

namespace ByteRegex

def hexDigit (n : Nat) : Char :=
  if n < 10 then Char.ofNat (48 + n) else Char.ofNat (55 + n)

def byteLabel (b : UInt8) : List Char :=
  if b = 0x20 then ['\x27', ' ', '\x27']
  else if b = 0x09 then ['\\', 't']
  else if b = 0x0d then ['\\', 'r']
  else if b = 0x0a then ['\\', 'n']
  else if b = 0x5c || b = 0x27 || b = 0x22 then ['\\', Char.ofNat b.toNat]
  else if 0x21 ≤ b && b ≤ 0x7e then [Char.ofNat b.toNat]
  else ['\\', 'x', hexDigit (b.toNat / 16), hexDigit (b.toNat % 16)]

end ByteRegex
