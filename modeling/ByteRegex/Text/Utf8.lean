/-! Text as bytes. Haystacks are byte lists, so a literal is found by the bytes that encode it, and
offsets into a pattern count bytes as well. -/

namespace ByteRegex.Utf8

def encode (cs : List Char) : List UInt8 :=
  cs.flatMap String.utf8EncodeChar

def size (cs : List Char) : Nat :=
  cs.foldr (fun c n => c.utf8Size + n) 0

def ofString (s : String) : List UInt8 :=
  encode s.toList

@[simp] theorem size_nil : size [] = 0 := rfl

@[simp] theorem size_cons (c : Char) (cs : List Char) : size (c :: cs) = c.utf8Size + size cs := rfl

theorem size_append (cs ds : List Char) : size (cs ++ ds) = size cs + size ds := by
  induction cs with
  | nil => simp
  | cons c cs ih => rw [List.cons_append, size_cons, size_cons, ih, Nat.add_assoc]

theorem length_encode (cs : List Char) : (encode cs).length = size cs := by
  induction cs with
  | nil => rfl
  | cons c cs ih =>
    rw [encode, List.flatMap_cons, List.length_append, String.length_utf8EncodeChar]
    rw [encode] at ih
    rw [ih, size_cons]

end ByteRegex.Utf8
