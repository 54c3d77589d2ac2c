/-! A haystack cut into lines. -/

namespace ByteRegex

/-- The pieces between line feeds. There is one more of them than line feeds. -/
def splitLines : List UInt8 → List (List UInt8)
  | [] => [[]]
  | b :: bytes =>
    if b = 0x0a then [] :: splitLines bytes
    else
      match splitLines bytes with
      | line :: lines => (b :: line) :: lines
      | [] => [[b]]

theorem splitLines_ne_nil (haystack : List UInt8) : splitLines haystack ≠ [] := by
  cases haystack with
  | nil => simp [splitLines]
  | cons b bytes =>
    rw [splitLines]
    split
    · simp
    · split <;> simp

end ByteRegex
