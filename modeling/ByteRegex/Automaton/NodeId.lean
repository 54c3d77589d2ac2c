/-! Numbers of automaton nodes. They are stored in 32 bits, and the two largest signed values are
left out so that the count of all nodes fits in 31. -/

namespace ByteRegex.NodeId

/-- The greatest node number, 2³¹ - 2. -/
def greatest : Nat := 0x7ffffffe

def maxCount : Nat := greatest + 1

def width : Nat := 4

structure OutOfRange where
  attempted : Nat
  deriving DecidableEq

def check (n : Nat) : Except OutOfRange Nat :=
  if n ≤ greatest then .ok n else .error ⟨n⟩

def truncate (n : Nat) : Nat :=
  n % 0x100000000

def display (n : Nat) : String :=
  "StateID(" ++ toString n ++ ")"

namespace OutOfRange

def message (e : OutOfRange) : String :=
  "failed to create StateID from " ++ toString e.attempted ++ ", which exceeds " ++ display greatest

def display (e : OutOfRange) : String :=
  "StateIDError \x7b attempted: " ++ toString e.attempted ++ " \x7d"

def broken (e : OutOfRange) : String :=
  "invalid state ID: " ++ e.display

end OutOfRange

end ByteRegex.NodeId
