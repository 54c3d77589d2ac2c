import ByteRegex.Automaton.NodeId

/-! Sets of visited nodes. Every node has a mark, and a node is visited when its mark is the present
era of the set, so clearing a set only begins a new era. Marks and eras are words of 32 bits: when the
eras have run out, all marks are taken back and the eras begin again. The members are those visited
nodes that count once nothing more can be followed, in the order in which they were found. -/

namespace ByteRegex

def insertAscending (a : Nat) : List Nat → List Nat
  | [] => [a]
  | b :: rest => if a ≤ b then a :: b :: rest else b :: insertAscending a rest

def sortAscending (l : List Nat) : List Nat :=
  l.foldr insertAscending []

theorem perm_insertAscending (a : Nat) (l : List Nat) : (insertAscending a l).Perm (a :: l) := by
  induction l with
  | nil => exact .refl _
  | cons b rest ih =>
    unfold insertAscending
    split
    · exact .refl _
    · exact (ih.cons b).trans (.swap a b rest)

theorem perm_sortAscending (l : List Nat) : (sortAscending l).Perm l := by
  induction l with
  | nil => exact .refl _
  | cons a rest ih => exact (perm_insertAscending a _).trans (ih.cons a)

theorem pairwise_insertAscending (a : Nat) {l : List Nat} (sorted : l.Pairwise (· ≤ ·)) :
    (insertAscending a l).Pairwise (· ≤ ·) := by
  induction l with
  | nil => exact List.pairwise_singleton _ a
  | cons b rest ih =>
    obtain ⟨least, sorted'⟩ := List.pairwise_cons.1 sorted
    unfold insertAscending
    split
    case isTrue low =>
      refine List.pairwise_cons.2 ⟨fun c inside => ?_, sorted⟩
      obtain rfl | later := List.mem_cons.1 inside
      · exact low
      · exact Nat.le_trans low (least c later)
    case isFalse high =>
      refine List.pairwise_cons.2 ⟨fun c inside => ?_, ih sorted'⟩
      obtain rfl | later := List.mem_cons.1 ((perm_insertAscending a rest).mem_iff.1 inside)
      · exact Nat.le_of_not_le high
      · exact least c later

theorem pairwise_sortAscending (l : List Nat) : (sortAscending l).Pairwise (· ≤ ·) := by
  induction l with
  | nil => exact .nil
  | cons a rest ih => exact pairwise_insertAscending a ih

structure NodeSet where
  marks : Array UInt32
  era : UInt32
  members : Array Nat

namespace NodeSet

def ofSize (n : Nat) : NodeSet :=
  ⟨Array.replicate n 0, 1, #[]⟩

def lastEra : UInt32 := 0xffffffff

/-- Take back all marks. No mark is of an era that begins after that. -/
def startOver (s : NodeSet) : NodeSet :=
  { s with marks := s.marks.map fun _ => 0, era := 0 }

def clear (s : NodeSet) : NodeSet :=
  let ready := if s.era = lastEra then s.startOver else s
  { ready with era := ready.era + 1, members := #[] }

def isVisited (s : NodeSet) (id : Nat) : Bool :=
  s.marks[id]? == some s.era

def visit (s : NodeSet) (id : Nat) (h : id < s.marks.size) : NodeSet :=
  { s with marks := s.marks.set id s.era }

def addMember (s : NodeSet) (id : Nat) : NodeSet :=
  { s with members := s.members.push id }

def ascending (s : NodeSet) : List Nat :=
  sortAscending s.members.toList

def unvisited (s : NodeSet) : Nat :=
  s.marks.countP (· != s.era)

def memory (s : NodeSet) : Nat :=
  2 * NodeId.width * s.marks.size

def display (s : NodeSet) : String :=
  "StateSet([" ++ String.intercalate ", " (s.members.toList.map NodeId.display) ++ "])"

@[simp] theorem unvisited_addMember (s : NodeSet) (id : Nat) :
    (s.addMember id).unvisited = s.unvisited := rfl

@[simp] theorem size_marks_addMember (s : NodeSet) (id : Nat) :
    (s.addMember id).marks.size = s.marks.size := rfl

@[simp] theorem size_marks_visit (s : NodeSet) (id : Nat) (h : id < s.marks.size) :
    (s.visit id h).marks.size = s.marks.size := by
  simp [visit]

@[simp] theorem isVisited_addMember (s : NodeSet) (id other : Nat) :
    (s.addMember id).isVisited other = s.isVisited other := rfl

theorem mem_ascending (s : NodeSet) (id : Nat) : id ∈ s.ascending ↔ id ∈ s.members := by
  rw [ascending, (perm_sortAscending _).mem_iff, Array.mem_toList_iff]

theorem pairwise_ascending (s : NodeSet) (nodup : s.members.toList.Nodup) :
    s.ascending.Pairwise (· < ·) := by
  have distinct : s.ascending.Nodup := (perm_sortAscending _).nodup_iff.2 nodup
  exact (pairwise_sortAscending _).imp₂ (fun _ _ le ne => Nat.lt_of_le_of_ne le ne) distinct

theorem isVisited_visit (s : NodeSet) (id other : Nat) (h : id < s.marks.size) :
    (s.visit id h).isVisited other = (decide (other = id) || s.isVisited other) := by
  by_cases e : other = id
  · subst e
    simp [isVisited, visit, h]
  · simp [isVisited, visit, e, Ne.symm e]

theorem unvisited_visit_lt (s : NodeSet) (id : Nat) (h : id < s.marks.size)
    (new : ¬s.isVisited id) : (s.visit id h).unvisited < s.unvisited := by
  have differs : (s.marks[id] != s.era) = true := by
    simpa [isVisited, h] using new
  have pos : 0 < s.marks.countP (· != s.era) :=
    Array.countP_pos_iff.2 ⟨s.marks[id], Array.getElem_mem h, differs⟩
  have count : (s.visit id h).unvisited = s.marks.countP (· != s.era) - 1 := by
    simp [unvisited, visit, Array.countP_set, differs]
  rw [count, unvisited]
  omega

end NodeSet

end ByteRegex
