import ByteRegex.Automaton.Basic
import ByteRegex.Search.NodeSet

/-! What an automaton reaches without reading a byte. A walk keeps a stack of the nodes still to be
visited and follows the first target of a split before the second.

Whether an anchor lets the walk through depends on the place in the haystack. Where it is not known
yet whether the haystack ends, an end anchor becomes a member, to be followed later.

A node set may belong to a smaller automaton than the one that is walked. A walk that meets a node
without a mark, or a mark without a node, breaks off and leaves the rest of its stack behind. -/

namespace ByteRegex

/-- What is known about a place in a haystack. -/
structure Place where
  atStart : Bool
  atEnd : Option Bool
  deriving DecidableEq

namespace Node

def silentTargets (p : Place) : Node Nat → List Nat
  | split first second => [first, second]
  | require .textStart next => if p.atStart then [next] else []
  | require .textEnd next => if p.atEnd = some true then [next] else []
  | _ => []

theorem length_silentTargets_le (p : Place) (n : Node Nat) : (n.silentTargets p).length ≤ 2 := by
  unfold silentTargets
  split
  · exact Nat.le_refl 2
  · split <;> simp
  · split <;> simp
  · exact Nat.zero_le 2

def isMember (p : Place) : Node Nat → Bool
  | consume _ _ => true
  | accept => true
  | require .textEnd _ => p.atEnd.isNone
  | _ => false

end Node

/-- The stack of a walk between walks. It is empty unless a walk broke off. -/
structure Stack where
  /-- The nodes left behind, the next one first. -/
  left : List Nat
  /-- The most nodes that the stack ever had to hold. -/
  peak : Nat

namespace Stack

def empty : Stack :=
  ⟨[], 0⟩

def clear (s : Stack) : Stack :=
  { s with left := [] }

/-- The space that the stack takes. It begins with four places and doubles when it is full. -/
def capacity (s : Stack) : Nat :=
  if s.peak = 0 then 0 else (max 4 s.peak).nextPowerOfTwo

def memory (s : Stack) : Nat :=
  NodeId.width * s.capacity

end Stack

structure Walk where
  set : NodeSet
  stack : Stack
  finished : Bool

namespace Automaton

/-- Visits the pending nodes and all that they lead to. `widest` is the most nodes that were pending
at one time. -/
def explore (m : Automaton) (p : Place) (set : NodeSet) (widest : Nat) :
    List Nat → NodeSet × List Nat × Nat × Bool
  | [] => (set, [], widest, true)
  | id :: rest =>
    if h : id < set.marks.size then
      if set.isVisited id then m.explore p set widest rest
      else
        match m.nodes[id]? with
        | none => (set.visit id h, rest, widest, false)
        | some node =>
          let pending := node.silentTargets p ++ rest
          let visited := set.visit id h
          m.explore p (if node.isMember p then visited.addMember id else visited)
            (max widest pending.length) pending
    else (set, rest, widest, false)
termination_by pending => 2 * set.unvisited + pending.length
decreasing_by
  · exact Nat.lt_succ_self _
  · have fewer := set.unvisited_visit_lt id h ‹_›
    have short := node.length_silentTargets_le p
    split <;> simp only [NodeSet.unvisited_addMember, List.length_append, List.length_cons] <;> omega

/-- Adds to a set what is reached from one more node. The walker holds up to `held` nodes outside of
its stack. -/
def closure (m : Automaton) (p : Place) (held : Nat) (set : NodeSet) (stack : Stack) (id : Nat) : Walk :=
  let pending := id :: stack.left
  let (set, left, widest, finished) := m.explore p set pending.length pending
  ⟨set, ⟨left, max stack.peak (max pending.length (widest - held))⟩, finished⟩

/-- Visits the node in hand and all that it leads to, and then what is left on the stack. One target at
most goes on the stack for each node, as the other is taken in hand. `peak` is the most nodes that the
stack ever had to hold. -/
def follow (m : Automaton) (atStart atEnd : Bool) (set : NodeSet) (peak : Nat) (left : List Nat) :
    Option Nat → NodeSet × List Nat × Nat × Bool
  | none =>
    match left with
    | [] => (set, [], peak, true)
    | id :: rest => m.follow atStart atEnd set peak rest (some id)
  | some id =>
    if h : id < set.marks.size then
      if set.isVisited id then m.follow atStart atEnd set peak left none
      else
        match m.nodes[id]? with
        | none => (set.visit id h, left, peak, false)
        | some (.split first second) =>
          m.follow atStart atEnd (set.visit id h) (max peak (left.length + 1)) (second :: left)
            (some first)
        | some (.require .textStart next) =>
          m.follow atStart atEnd (set.visit id h) peak left (if atStart then some next else none)
        | some (.require .textEnd next) =>
          m.follow atStart atEnd (set.visit id h) peak left (if atEnd then some next else none)
        | some (.consume _ _) | some .accept =>
          m.follow atStart atEnd ((set.visit id h).addMember id) peak left none
    else (set, left, peak, false)
termination_by hand => 3 * set.unvisited + 2 * left.length + hand.toList.length
decreasing_by
  all_goals try have fewer := set.unvisited_visit_lt id h ‹_›
  all_goals try split
  all_goals simp only [NodeSet.unvisited_addMember, List.length_cons, Option.toList_some,
    Option.toList_none, List.length_nil]
  all_goals omega

def directClosure (m : Automaton) (atStart atEnd : Bool) (set : NodeSet) (stack : Stack) (id : Nat) : Walk :=
  let pending := id :: stack.left
  let (set, left, peak, finished) :=
    m.follow atStart atEnd set (max stack.peak pending.length) pending none
  ⟨set, ⟨left, peak⟩, finished⟩

def advance (m : Automaton) (walk : NodeSet → Stack → Nat → Walk) (b : UInt8) (set : NodeSet)
    (stack : Stack) : List Nat → Walk
  | [] => ⟨set, stack, true⟩
  | id :: ids =>
    match m.nodes[id]? with
    | none => ⟨set, stack, false⟩
    | some node =>
      match node.move? b with
      | none => m.advance walk b set stack ids
      | some target =>
        let w := walk set stack target
        if w.finished then m.advance walk b w.set w.stack ids else w

end Automaton

end ByteRegex
