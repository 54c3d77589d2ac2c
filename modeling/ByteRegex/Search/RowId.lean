/-! The name of a row in a table, in a word of 32 bits. The lower 29 bits are the place of the first
cell of the row among all cells, so the place of the cell for a byte is a sum. The three bits above
say that nothing is known yet, that the row belongs to the empty set, and that a haystack that ends
there is accepted. -/

namespace ByteRegex

structure RowId where
  word : UInt32
  deriving DecidableEq

namespace RowId

def unknownBit : UInt32 := 0x80000000

def deadBit : UInt32 := 0x40000000

def acceptingBit : UInt32 := 0x20000000

def greatestPlace : Nat := 0x1fffffff

/-- The number of the last row whose first cell has a place that fits, 2²¹ - 1. -/
def greatest : Nat := 0x1fffff

/-- The row at a place, about which nothing is said, unless the place does not fit. -/
def ofPlace (place : Nat) : Option RowId :=
  if place > greatestPlace then none else some ⟨place.toUInt32⟩

def unknown : RowId :=
  ⟨unknownBit⟩

def toDead (r : RowId) : RowId :=
  ⟨r.word ||| deadBit⟩

def toAccepting (r : RowId) : RowId :=
  ⟨r.word ||| acceptingBit⟩

def bare : RowId :=
  ⟨0⟩

def ofEmpty : RowId :=
  bare.toDead

def isUnknown (r : RowId) : Bool :=
  r.word &&& unknownBit > 0

def dead (r : RowId) : Bool :=
  r.word &&& deadBit > 0

def accepting (r : RowId) : Bool :=
  r.word &&& acceptingBit > 0

def place (r : RowId) : Nat :=
  r.word.toNat &&& greatestPlace

def row (r : RowId) : Nat :=
  r.place / 256

def display (r : RowId) : String :=
  "LazyStateID(" ++ toString r.word.toNat ++ ")"

end RowId

end ByteRegex
