import ByteRegex.Text.ByteLabel

/-! Sets of bytes that a character class can spell. The ASCII members are stored as bits, and a
flag says whether the set is the complement of the stored bytes. No class spells a byte beyond
ASCII, so such a byte is a member exactly when the set is complemented. -/

namespace ByteRegex

structure ByteSet where
  bits : BitVec 128
  negated : Bool
  deriving DecidableEq

namespace ByteSet

def empty : ByteSet := ⟨0, false⟩

def any : ByteSet := ⟨0, true⟩

def contains (s : ByteSet) (b : UInt8) : Bool :=
  s.bits.getLsbD b.toNat != s.negated

def span (lo hi : UInt8) : BitVec 128 :=
  (BitVec.allOnes 128 <<< lo.toNat) &&& ~~~(BitVec.allOnes 128 <<< (hi.toNat + 1))

def add (s : ByteSet) (b : UInt8) : ByteSet :=
  { s with bits := s.bits ||| BitVec.twoPow 128 b.toNat }

def addRange (s : ByteSet) (lo hi : UInt8) : ByteSet :=
  { s with bits := s.bits ||| span lo hi }

def setNegated (s : ByteSet) (negated : Bool) : ByteSet :=
  { s with negated }

theorem getLsbD_span (lo hi : UInt8) (i : Nat) :
    (span lo hi).getLsbD i = (decide (i < 128) && decide (lo.toNat ≤ i) && decide (i ≤ hi.toNat)) := by
  simp only [span, BitVec.getLsbD_and, BitVec.getLsbD_not, BitVec.getLsbD_shiftLeft,
    BitVec.getLsbD_allOnes]
  by_cases h : i < 128 <;> by_cases hl : lo.toNat ≤ i <;> by_cases hh : i ≤ hi.toNat <;>
    simp [h, hl, hh, Nat.lt_succ_iff] <;> omega

theorem contains_add (s : ByteSet) (b c : UInt8) :
    (s.add b).contains c =
      ((s.bits.getLsbD c.toNat || (decide (b = c) && decide (c < 128))) != s.negated) := by
  have e : b.toNat = c.toNat ↔ b = c := UInt8.toNat_inj
  have l : c.toNat < 128 ↔ c < 128 := by rw [UInt8.lt_iff_toNat_lt]; rfl
  simp only [contains, add, BitVec.getLsbD_or, BitVec.getLsbD_twoPow, ← e, ← l]
  rw [Bool.and_comm]
  congr 2
  by_cases h : b.toNat = c.toNat <;> simp [h]

/-- Maximal runs of consecutive numbers in an ascending list. -/
def runs : List Nat → List (Nat × Nat)
  | [] => []
  | n :: rest =>
    match runs rest with
    | (lo, hi) :: more => if n + 1 = lo then (n, hi) :: more else (n, n) :: (lo, hi) :: more
    | [] => [(n, n)]

def stored (s : ByteSet) : List Nat :=
  (List.range 128).filter s.bits.getLsbD

def memberRuns (s : ByteSet) : List (Nat × Nat) :=
  runs ((List.range 256).filter fun n => s.contains (UInt8.ofNat n))

def runLabel : Nat × Nat → List Char
  | (lo, hi) =>
    if lo = hi then byteLabel (UInt8.ofNat lo)
    else byteLabel (UInt8.ofNat lo) ++ ['-'] ++ byteLabel (UInt8.ofNat hi)

/-- The readable form: a bracketed class of the stored runs. -/
def label (s : ByteSet) : List Char :=
  ['['] ++ (if s.negated then ['^'] else []) ++ (runs s.stored).flatMap runLabel ++ [']']

end ByteSet

end ByteRegex
