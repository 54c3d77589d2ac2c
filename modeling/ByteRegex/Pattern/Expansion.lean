import ByteRegex.Pattern.Bounds
import ByteRegex.Pattern.Token

/-! Quantifiers written out as copies of the atom that they follow. The atom is the last operand, or
the last group with all that is in it. `x` repeated at least `m` times becomes `m` copies and a
starred one, and between `m` and `n` times becomes `m` copies and `n - m` optional ones.

A limit on the number of automaton nodes is checked before anything is copied, against a counter of 64
bits that is kept up to date with what is written. Copies that need no nodes pass under every limit. -/

namespace ByteRegex

/-! Arithmetic of a counter that stays at the greatest number of 64 bits once it gets there. -/

namespace Counter

def greatest : Nat := 0xffffffffffffffff

def add (m n : Nat) : Nat :=
  min (m + n) greatest

def mul (m n : Nat) : Nat :=
  min (m * n) greatest

theorem add_le (m n : Nat) : add m n ≤ m + n :=
  Nat.min_le_left _ _

theorem add_of_le {m n : Nat} (h : m + n ≤ greatest) : add m n = m + n :=
  Nat.min_eq_left h

theorem add_min (m n : Nat) : add m (min n greatest) = min (m + n) greatest := by
  simp only [add]
  omega

theorem mul_min (m n : Nat) : mul m (min n greatest) = min (m * n) greatest := by
  obtain small | large := Nat.le_total n greatest
  · rw [Nat.min_eq_left small, mul]
  · rw [Nat.min_eq_right large, mul]
    obtain rfl | positive := Nat.eq_zero_or_pos m
    · rw [Nat.zero_mul, Nat.zero_mul]
    · rw [Nat.min_eq_right (Nat.le_mul_of_pos_left greatest positive),
        Nat.min_eq_right (Nat.le_trans large (Nat.le_mul_of_pos_left n positive))]

end Counter

namespace Token

def isQuantifier : Token → Bool
  | quantifier _ => true
  | _ => false

def isRepetition : Token → Bool
  | repetition _ => true
  | _ => false

def cost : Token → Nat
  | operand (.literal c) => c.utf8Size
  | operand _ => 1
  | repetition _ => 1
  | alternation => 1
  | _ => 0

@[simp] theorem cost_literal (c : Char) : cost (operand (.literal c)) = c.utf8Size := rfl

@[simp] theorem cost_repetition (op : Repetition) : cost (repetition op) = 1 := rfl

@[simp] theorem cost_alternation : cost alternation = 1 := rfl

@[simp] theorem cost_groupOpen : cost groupOpen = 0 := rfl

@[simp] theorem cost_groupClose : cost groupClose = 0 := rfl

end Token

namespace Expansion

/-- The number of automaton nodes that the tokens stand for, without the accepting one. -/
def cost (ts : List Token) : Nat :=
  ts.foldr (fun t n => t.cost + n) 0

@[simp] theorem cost_nil : cost [] = 0 := rfl

@[simp] theorem cost_cons (t : Token) (ts : List Token) : cost (t :: ts) = t.cost + cost ts := rfl

theorem cost_append (ts us : List Token) : cost (ts ++ us) = cost ts + cost us := by
  induction ts with
  | nil => simp
  | cons t ts ih => rw [List.cons_append, cost_cons, cost_cons, ih, Nat.add_assoc]

theorem cost_operator (op : Repetition) : cost [.repetition op] = 1 := rfl

/-- The tokens of a group and those before it, both read backwards from inside the group, of which
`depth` inner groups are open. `inside` is what was read already. -/
def splitGroup (depth : Nat) (inside : List Token) :
    List Token → Except Fault (List Token × List Token)
  | [] => .error .unbalancedGroup
  | .groupClose :: before => splitGroup (depth + 1) (.groupClose :: inside) before
  | .groupOpen :: before =>
    match depth with
    | 0 => .ok (.groupOpen :: inside, before)
    | depth + 1 => splitGroup depth (.groupOpen :: inside) before
  | t :: before => splitGroup depth (t :: inside) before

/-- Splits the last atom off a list of tokens, latest first. The atom comes in reading order. -/
def splitAtom : List Token → Except Fault (List Token × List Token)
  | .operand item :: before => .ok ([.operand item], before)
  | .groupClose :: before => splitGroup 0 [.groupClose] before
  | _ => .error .danglingOperator

end Expansion

namespace Bounds

def extra (b : Bounds) : Nat :=
  match b.most with
  | none => 1
  | some most => most - b.least

def unroll (b : Bounds) (atom : List Token) : List Token :=
  (List.replicate b.least atom).flatten ++
    match b.most with
    | none => atom ++ [.repetition .star]
    | some most => (List.replicate (most - b.least) (atom ++ [.repetition .option])).flatten

def unrolledCost (b : Bounds) (atomCost : Nat) : Nat :=
  atomCost * (b.least + b.extra) + b.extra

/-- The cost of the copies as a counter has it. -/
def countedCost (b : Bounds) (atomCost : Nat) : Nat :=
  Counter.add (Counter.mul atomCost (Counter.add b.least b.extra)) b.extra

theorem countedCost_eq (b : Bounds) (atomCost : Nat) :
    b.countedCost atomCost = min (b.unrolledCost atomCost) Counter.greatest := by
  rw [countedCost, Counter.add.eq_1 b.least, Counter.mul_min, Counter.add, Nat.add_comm, ← Counter.add,
    Counter.add_min, Nat.add_comm, unrolledCost]

section Additive

variable {f : List Token → Nat} (additive : ∀ ts us, f (ts ++ us) = f ts + f us)

include additive

theorem measure_replicate (n : Nat) (ts : List Token) : f (List.replicate n ts).flatten = n * f ts := by
  induction n with
  | zero =>
    have nothing := additive [] []
    simp only [List.append_nil] at nothing
    simp only [List.replicate_zero, List.flatten_nil]
    omega
  | succ n ih => rw [List.replicate_succ, List.flatten_cons, additive, ih, Nat.succ_mul, Nat.add_comm]

theorem measure_unroll (operator : ∀ op, f [.repetition op] = 1) (b : Bounds) (atom : List Token) :
    f (b.unroll atom) = b.unrolledCost (f atom) := by
  rcases b with ⟨least, most | most, _⟩
  · simp only [unroll, unrolledCost, extra, additive, measure_replicate additive, operator, Nat.mul_add,
      Nat.mul_comm least]
    omega
  · simp only [unroll, unrolledCost, extra, additive, measure_replicate additive, operator, Nat.mul_add,
      Nat.add_mul, Nat.one_mul, Nat.mul_comm least, Nat.mul_comm (most - least)]
    omega

end Additive

theorem cost_unroll (b : Bounds) (atom : List Token) :
    Expansion.cost (b.unroll atom) = b.unrolledCost (Expansion.cost atom) :=
  measure_unroll Expansion.cost_append Expansion.cost_operator b atom

end Bounds

structure Expansion where
  /-- The tokens, latest first. -/
  written : List Token
  /-- The counter of the nodes that they stand for. -/
  nodes : Nat
  /-- Whether the token read last was a repetition of either kind. -/
  afterRepetition : Bool

namespace Expansion

def start : Expansion :=
  ⟨[], 0, false⟩

@[simp] theorem start_written : start.written = [] := rfl

/-- Whether nodes, and the accepting one, are more than allowed. -/
def exceeds (nodes : Nat) : Option Nat → Bool
  | none => false
  | some limit => Counter.add nodes 1 > limit

def push (e : Expansion) (t : Token) : Expansion :=
  ⟨t :: e.written, Counter.add e.nodes t.cost, t.isRepetition⟩

@[simp] theorem push_written (e : Expansion) (t : Token) : (e.push t).written = t :: e.written := rfl

def nodesAfter (e : Expansion) (b : Bounds) (atom : List Token) : Nat :=
  Counter.add (e.nodes - cost atom) (b.countedCost (cost atom))

def unroll (e : Expansion) (b : Bounds) (atom before : List Token) : Expansion :=
  ⟨(b.unroll atom).reverse ++ before, e.nodesAfter b atom, true⟩

@[simp] theorem unroll_written (e : Expansion) (b : Bounds) (atom before : List Token) :
    (e.unroll b atom before).written = (b.unroll atom).reverse ++ before := rfl

def step (limit : Option Nat) (e : Expansion) : Token → Except Fault Expansion
  | .quantifier text =>
    if e.afterRepetition then .error .danglingOperator
    else do
      let bounds ← Bounds.ofText text
      let (atom, before) ← splitAtom e.written
      if exceeds (e.nodesAfter bounds atom) limit then .error .expansionTooLarge
      else .ok (e.unroll bounds atom before)
  | t => .ok (e.push t)

end Expansion

def expand (limit : Option Nat) (ts : List Token) : Except Fault (List Token) :=
  (ts.foldlM (Expansion.step limit) .start).map fun e => e.written.reverse

end ByteRegex
