import ByteRegex.Proofs.Reach

/-! What one walk adds to a set. It starts with nothing on the stack and with visited nodes from which no
enabled edge leads to others, and it ends in the same way, with all visited that enabled edges lead to
from one more node. So several walks can share a set: a node that is skipped because it is visited already
hides nothing.

A simulation knows whether its place is the end of the haystack. A table does not, and its walks list the
end anchors that they come to. -/

namespace ByteRegex

open Relation

namespace Automaton

/-- The edges that are followed without reading a byte: both edges of a split, and the edge of an anchor
that is known to hold. -/
inductive Enabled (m : Automaton) (p : Place) : Nat → Nat → Prop
  | first {a b c : Nat} (node : m.nodes[a]? = some (.split b c)) : Enabled m p a b
  | second {a b c : Nat} (node : m.nodes[a]? = some (.split b c)) : Enabled m p a c
  | textStart {a b : Nat} (node : m.nodes[a]? = some (.require .textStart b))
      (holds : p.atStart = true) : Enabled m p a b
  | textEnd {a b : Nat} (node : m.nodes[a]? = some (.require .textEnd b))
      (holds : p.atEnd = some true) : Enabled m p a b

/-- The nodes that a set lists: those that read a byte or accept, and where the end of the haystack is not
known yet the anchors that wait for it. -/
inductive Listed (m : Automaton) (p : Place) (a : Nat) : Prop
  | reads {label : Label} {b : Nat} (node : m.nodes[a]? = some (.consume label b))
  | accepts (node : m.nodes[a]? = some .accept)
  | waits {b : Nat} (node : m.nodes[a]? = some (.require .textEnd b)) (unknown : p.atEnd = none)

variable {m : Automaton} {p : Place}

theorem enabled_iff {a b : Nat} : m.Enabled p a b ↔ m.Silent p a b := by
  constructor
  · rintro (node | node | ⟨node, holds⟩ | ⟨node, holds⟩)
    · exact ⟨_, node, by simp [Node.silentTargets]⟩
    · exact ⟨_, node, by simp [Node.silentTargets]⟩
    · exact ⟨_, node, by simp [Node.silentTargets, holds]⟩
    · exact ⟨_, node, by simp [Node.silentTargets, holds]⟩
  · rintro ⟨n, node, target⟩
    cases n with
    | consume | accept => cases target
    | split x y =>
      obtain rfl | rfl : b = x ∨ b = y := by simpa [Node.silentTargets] using target
      · exact .first node
      · exact .second node
    | require anchor next =>
      cases anchor with
      | textStart =>
        obtain ⟨holds, rfl⟩ : p.atStart = true ∧ b = next := by
          simpa [Node.silentTargets] using target
        exact .textStart node holds
      | textEnd =>
        obtain ⟨holds, rfl⟩ : p.atEnd = some true ∧ b = next := by
          simpa [Node.silentTargets] using target
        exact .textEnd node holds

theorem listed_iff {a : Nat} : m.Listed p a ↔ m.Counts p a := by
  constructor
  · rintro (node | node | ⟨node, unknown⟩)
    · exact ⟨_, node, rfl⟩
    · exact ⟨_, node, rfl⟩
    · exact ⟨_, node, by simp [Node.isMember, unknown]⟩
  · rintro ⟨n, node, member⟩
    cases n with
    | consume => exact .reads node
    | accept => exact .accepts node
    | split => cases member
    | require anchor next =>
      cases anchor with
      | textStart => cases member
      | textEnd => exact .waits node (by simpa [Node.isMember] using member)

theorem enabled_eq : m.Enabled p = m.Silent p :=
  funext fun _ => funext fun _ => propext enabled_iff

/-- A walk from a node comes to its end with nothing on the stack, and it is the same walk if the next node
is kept in hand. It visits exactly what enabled edges lead to from the node, so no enabled edge leads out of
the visited nodes, and it appends the newly visited nodes that are listed to the members, each once. -/
theorem closure_exact (built : m.Built) (p : Place) (held : Nat) {set : NodeSet} {stack : Stack} {id : Nat}
    (isNode : id < m.size) (room : set.marks.size = m.size) (empty : stack.left = [])
    (closed : ∀ a b, set.isVisited a = true → m.Enabled p a b → set.isVisited b = true) :
    ∃ walk, m.closure p held set stack id = walk ∧
      (∀ atEnd, p.atEnd = some atEnd → held = 1 → m.directClosure p.atStart atEnd set stack id = walk) ∧
      walk.finished = true ∧ walk.stack.left = [] ∧ walk.set.marks.size = m.size ∧
      (∀ a, walk.set.isVisited a = true ↔
        set.isVisited a = true ∨ ReflTransGen (m.Enabled p) id a) ∧
      (∀ a b, walk.set.isVisited a = true → m.Enabled p a b → walk.set.isVisited b = true) ∧
      ∃ gained : List Nat, walk.set.members.toList = set.members.toList ++ gained ∧ gained.Nodup ∧
        ∀ a, a ∈ gained ↔ walk.set.isVisited a = true ∧ set.isVisited a = false ∧ m.Listed p a := by
  have bounds : ∀ a ∈ id :: stack.left, a < m.size := by simpa [empty] using isNode
  have closed' : m.Closed p (fun a => set.isVisited a = true) (id :: stack.left) :=
    fun a b inside step => .inl (closed a b inside (enabled_iff.2 step))
  -- all that is visited is closed, so only the new node has to be followed
  obtain ⟨set', widest, result, gains⟩ :=
    explore_gains built.wellFormed (id :: stack.left).length room bounds closed'
  have walk : m.closure p held set stack id =
      ⟨set', ⟨[], max stack.peak (max (id :: stack.left).length (widest - held))⟩, true⟩ := by
    simp only [closure, result]
  have visited (a : Nat) : set'.isVisited a = true ↔
      set.isVisited a = true ∨ ReflTransGen (m.Enabled p) id a := by
    rw [gains.visited_iff, empty, enabled_eq]
    simp [Reaches]
  obtain ⟨gained, members, nodup, mem_iff⟩ := gains.members_eq
  refine ⟨_, walk, ?_, rfl, rfl, gains.size_eq.trans room, visited, fun a b here step => ?_, gained,
    members, nodup, fun a => ?_⟩
  · rintro atEnd known rfl
    rw [directClosure_eq, ← known]
    exact walk
  · rw [visited] at here ⊢
    exact here.imp (fun old => closed a b old step) (·.tail step)
  · rw [mem_iff, gains.visited_iff, listed_iff, ← and_assoc, Bool.not_eq_true]
    refine and_congr_left fun _ => ?_
    cases set.isVisited a <;> simp

theorem closure_exact_of_loop : ∃ (m : Automaton) (first second : Walk), m.Built ∧ 3 < m.size ∧
    m.closure ⟨false, none⟩ 0 (.ofSize m.size) .empty 3 = first ∧ first.set.members = #[3] ∧
    m.closure ⟨false, none⟩ 0 first.set first.stack m.start = second ∧
    second.set.members = #[3, 0, 2, 6] ∧ second.finished = true ∧ second.stack.left = [] ∧
    ∀ a, second.set.isVisited a = true ↔
      first.set.isVisited a = true ∨ ReflTransGen (m.Enabled ⟨false, none⟩) m.start a := by
  have compiles : (Construction.ofPattern {} "(a*|b$)*").toOption.any (fun m => decide
      (3 < m.size ∧
        (m.closure ⟨false, none⟩ 0 (.ofSize m.size) .empty 3).set.members = #[3] ∧
        (m.closure ⟨false, none⟩ 0 (m.closure ⟨false, none⟩ 0 (.ofSize m.size) .empty 3).set
          (m.closure ⟨false, none⟩ 0 (.ofSize m.size) .empty 3).stack m.start).set.members =
            #[3, 0, 2, 6])) = true := by
    decide +kernel
  obtain ⟨m, built, isNode, members, members'⟩ := exists_built compiles
  have nothing : ∀ a b, (NodeSet.ofSize m.size).isVisited a = true → m.Enabled ⟨false, none⟩ a b →
      (NodeSet.ofSize m.size).isVisited b = true := by
    intro a b visited
    simp [NodeSet.ofSize, NodeSet.isVisited, Array.getElem?_replicate] at visited
  have empty : Stack.empty.left = [] := rfl
  obtain ⟨first, result, -, -, left, room, -, closed, -⟩ :=
    closure_exact built ⟨false, none⟩ 0 isNode Array.size_replicate empty nothing
  obtain ⟨second, result', -, finished, left', -, visited, -⟩ := closure_exact built ⟨false, none⟩ 0
    built.wellFormed.start_lt room left closed
  rw [result] at members members'
  rw [result'] at members'
  exact ⟨m, first, second, built, isNode, result, members, result', members', finished, left', visited⟩

end Automaton

end ByteRegex
