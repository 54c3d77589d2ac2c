import ByteRegex.Proofs.Shape
import ByteRegex.Search.Closure
import Mathlib.Logic.Relation

/-! What walks find. A node set that fits an automaton and holds a closed set of nodes comes out of a
walk with exactly the nodes added that are reached without reading a byte, and the walk does not
break off. It is the same walk whether the next node is in hand or on the stack. -/

namespace ByteRegex

open Relation

namespace Automaton

def Silent (m : Automaton) (p : Place) (a b : Nat) : Prop :=
  ∃ n, m.nodes[a]? = some n ∧ b ∈ n.silentTargets p

def Reaches (m : Automaton) (p : Place) : Nat → Nat → Prop :=
  ReflTransGen (m.Silent p)

def Moves (m : Automaton) (b : UInt8) (a c : Nat) : Prop :=
  ∃ n, m.nodes[a]? = some n ∧ n.move? b = some c

/-- Whether a visited node is a member. -/
def Counts (m : Automaton) (p : Place) (a : Nat) : Prop :=
  ∃ n, m.nodes[a]? = some n ∧ n.isMember p = true

/-- Whether nodes lead silently to each other and to the pending ones only. -/
def Closed (m : Automaton) (p : Place) (nodes : Nat → Prop) (pending : List Nat) : Prop :=
  ∀ a b, nodes a → m.Silent p a b → nodes b ∨ b ∈ pending

end Automaton

namespace NodeSet

/-- A set fits an automaton that has one node for every mark. No mark is of an era to come. -/
structure Fits (s : NodeSet) (m : Automaton) : Prop where
  size_eq : s.marks.size = m.size
  past : ∀ {a : Nat} {k : UInt32}, s.marks[a]? = some k → k ≤ s.era

/-- The visited nodes are the given ones, and the members are those of them that count, each once. -/
structure Holds (s : NodeSet) (m : Automaton) (p : Place) (nodes : Nat → Prop) : Prop where
  fits : s.Fits m
  visited_iff : ∀ a, s.isVisited a = true ↔ nodes a
  members_iff : ∀ a, a ∈ s.members ↔ nodes a ∧ m.Counts p a
  nodup : s.members.toList.Nodup

variable {m : Automaton} {p : Place} {s s' : NodeSet} {nodes others : Nat → Prop}

theorem fits_ofSize : (ofSize m.size).Fits m := by
  refine ⟨Array.size_replicate, ?_⟩
  intro a k mark
  simp only [ofSize, Array.getElem?_replicate, Option.ite_none_right_eq_some,
    Option.some.injEq] at mark ⊢
  rw [← mark.2]
  decide

theorem Fits.startOver (h : s.Fits m) : s.startOver.Fits m := by
  refine ⟨?_, ?_⟩
  · rw [NodeSet.startOver, Array.size_map, h.size_eq]
  · intro a k mark
    simp only [NodeSet.startOver, Array.getElem?_map, Option.map_eq_some_iff] at mark ⊢
    obtain ⟨_, _, rfl⟩ := mark
    exact UInt32.le_refl 0

theorem lt_nextEra {era : UInt32} (goesOn : era ≠ lastEra) : era < era + 1 := by
  have before : era.toNat ≠ lastEra.toNat := fun same => goesOn (UInt32.toNat_inj.1 same)
  have bound := era.toNat_lt
  have last : lastEra.toNat = 4294967295 := rfl
  rw [UInt32.lt_iff_toNat_lt, UInt32.toNat_add]
  simp only [UInt32.reduceToNat]
  omega

theorem Fits.nextEra (h : s.Fits m) (goesOn : s.era ≠ lastEra) :
    NodeSet.Holds { s with era := s.era + 1, members := #[] } m p (fun _ => False) := by
  have later := lt_nextEra goesOn
  refine ⟨⟨h.size_eq, ?_⟩, ?_, ?_, List.nodup_nil⟩
  · intro a k mark
    exact UInt32.le_trans (h.past mark) (UInt32.le_of_lt later)
  · intro a
    have old : s.marks[a]? ≠ some (s.era + 1) :=
      fun mark => UInt32.not_le.2 later (h.past mark)
    simpa [isVisited] using old
  · intro a
    simp

/-- A cleared set is empty, because every mark is of an earlier era. When the eras have run out, this
is so because all marks are taken back. -/
theorem Fits.clear (h : s.Fits m) : s.clear.Holds m p (fun _ => False) := by
  unfold NodeSet.clear
  split
  case isTrue => exact h.startOver.nextEra (show (0 : UInt32) ≠ lastEra by decide)
  case isFalse goesOn => exact h.nextEra goesOn

theorem Fits.cleared (h : s.Fits m) : s.clear.Fits m :=
  (h.clear (p := ⟨true, none⟩)).fits

theorem Holds.congr (h : s.Holds m p nodes) (same : ∀ a, nodes a ↔ others a) :
    s.Holds m p others := by
  have equal : nodes = others := funext fun a => propext (same a)
  rw [← equal]
  exact h

theorem mark_of_visit {a b : Nat} {k : UInt32} (bound : a < s.marks.size)
    (mark : (s.visit a bound).marks[b]? = some k) : k = s.era ∨ s.marks[b]? = some k := by
  have set : (s.marks.set a s.era bound)[b]? = some k := mark
  rw [Array.getElem?_set] at set
  split at set
  · exact .inl (Option.some.inj set).symm
  · exact .inr set

theorem Fits.visit (h : s.Fits m) (a : Nat) (bound : a < s.marks.size) :
    (s.visit a bound).Fits m := by
  refine ⟨(s.size_marks_visit a bound).trans h.size_eq, fun mark => ?_⟩
  obtain present | earlier := mark_of_visit bound mark
  · exact UInt32.le_of_eq present
  · exact h.past earlier

/-- What a walk makes of a set. The nodes that it finds are visited, and those of them that count and were
not visited before are appended to the members, each once. -/
structure Gains (s s' : NodeSet) (m : Automaton) (p : Place) (found : Nat → Prop) : Prop where
  era_eq : s'.era = s.era
  size_eq : s'.marks.size = s.marks.size
  marks : ∀ {a : Nat} {k : UInt32}, s'.marks[a]? = some k → k = s.era ∨ s.marks[a]? = some k
  visited_iff : ∀ a, s'.isVisited a = true ↔ s.isVisited a = true ∨ found a
  members_eq : ∃ gained : List Nat, s'.members.toList = s.members.toList ++ gained ∧ gained.Nodup ∧
    ∀ a, a ∈ gained ↔ (found a ∧ ¬s.isVisited a = true) ∧ m.Counts p a

theorem Gains.congr (h : s.Gains s' m p nodes)
    (same : ∀ a, s.isVisited a = true ∨ nodes a ↔ s.isVisited a = true ∨ others a) :
    s.Gains s' m p others := by
  obtain ⟨gained, members, nodup, mem_iff⟩ := h.members_eq
  refine ⟨h.era_eq, h.size_eq, h.marks, fun a => (h.visited_iff a).trans (same a), gained, members,
    nodup, fun a => (mem_iff a).trans (and_congr_left fun _ => ?_)⟩
  exact and_congr_left fun new => by simpa [new] using same a

theorem gains_nothing : s.Gains s m p (fun _ => False) where
  era_eq := rfl
  size_eq := rfl
  marks := .inr
  visited_iff a := by simp
  members_eq := ⟨[], by simp⟩

theorem gains_visit {a : Nat} {n : Node Nat} (new : ¬s.isVisited a = true)
    (isNode : m.nodes[a]? = some n) (bound : a < s.marks.size) :
    s.Gains (if n.isMember p then (s.visit a bound).addMember a else s.visit a bound) m p (· = a) := by
  have counts : m.Counts p a ↔ n.isMember p = true := by simp [Automaton.Counts, isNode]
  have visited (b : Nat) : (s.visit a bound).isVisited b = true ↔ s.isVisited b = true ∨ b = a := by
    rw [isVisited_visit, Bool.or_eq_true, decide_eq_true_iff, or_comm]
  split
  case isTrue member =>
    refine ⟨rfl, s.size_marks_visit a bound, mark_of_visit bound, visited, [a], Array.toList_push,
      List.pairwise_singleton _ a, ?_⟩
    intro b
    rw [List.mem_singleton]
    constructor
    · rintro rfl
      exact ⟨⟨rfl, new⟩, counts.2 member⟩
    · exact fun h => h.1.1
  case isFalse other =>
    refine ⟨rfl, s.size_marks_visit a bound, mark_of_visit bound, visited, [],
      (List.append_nil _).symm, List.nodup_nil, fun b => iff_of_false List.not_mem_nil ?_⟩
    rintro ⟨⟨rfl, -⟩, count⟩
    exact other (counts.1 count)

theorem Gains.trans {s₁ s₂ : NodeSet} (h : s.Gains s₁ m p nodes) (h' : s₁.Gains s₂ m p others) :
    s.Gains s₂ m p (fun a => nodes a ∨ others a) := by
  obtain ⟨gained, members, nodup, mem_iff⟩ := h.members_eq
  obtain ⟨more, members', nodup', mem_iff'⟩ := h'.members_eq
  refine ⟨h'.era_eq.trans h.era_eq, h'.size_eq.trans h.size_eq, ?_, fun a => ?_, gained ++ more, ?_,
    ?_, fun a => ?_⟩
  · intro a k mark
    obtain present | earlier := h'.marks mark
    · exact .inl (present.trans h.era_eq)
    · exact h.marks earlier
  · rw [h'.visited_iff, h.visited_iff, or_assoc]
  · rw [members', members, List.append_assoc]
  · refine List.nodup_append.2 ⟨nodup, nodup', ?_⟩
    rintro a old b new rfl
    exact ((mem_iff' a).1 new).1.2 ((h.visited_iff a).2 (.inr ((mem_iff a).1 old).1.1))
  · rw [List.mem_append, mem_iff, mem_iff', h.visited_iff, ← or_and_right]
    refine and_congr_left fun _ => ?_
    by_cases old : s.isVisited a = true <;> by_cases first : nodes a <;> simp [old, first]

theorem Gains.holds (gains : s.Gains s' m p others) (h : s.Holds m p nodes) :
    s'.Holds m p (fun a => nodes a ∨ others a) := by
  obtain ⟨gained, members, nodup, mem_iff⟩ := gains.members_eq
  refine ⟨⟨gains.size_eq.trans h.fits.size_eq, fun mark => ?_⟩, fun a => ?_, fun a => ?_, ?_⟩
  · rw [gains.era_eq]
    obtain present | earlier := gains.marks mark
    · exact UInt32.le_of_eq present
    · exact h.fits.past earlier
  · rw [gains.visited_iff, h.visited_iff]
  · rw [← Array.mem_toList_iff, members, List.mem_append, Array.mem_toList_iff, h.members_iff,
      mem_iff, h.visited_iff, ← or_and_right]
    refine and_congr_left fun _ => ?_
    by_cases old : nodes a <;> simp [old]
  · rw [members]
    refine List.nodup_append.2 ⟨h.nodup, nodup, ?_⟩
    rintro a old b new rfl
    have inside := ((h.members_iff a).1 (Array.mem_toList_iff.1 old)).1
    exact ((mem_iff a).1 new).1.2 ((h.visited_iff a).2 inside)

end NodeSet

namespace Automaton

variable {m : Automaton} {p : Place} {nodes : Nat → Prop} {pending : List Nat}

theorem silent_iff {a b : Nat} {n : Node Nat} (found : m.nodes[a]? = some n) :
    m.Silent p a b ↔ b ∈ n.silentTargets p := by
  simp [Silent, found]

theorem reaches_iff {a c : Nat} {n : Node Nat} (found : m.nodes[a]? = some n) :
    m.Reaches p a c ↔ c = a ∨ ∃ b ∈ n.silentTargets p, m.Reaches p b c := by
  rw [Reaches, ReflTransGen.cases_head_iff]
  simp only [silent_iff found, eq_comm]

theorem mem_targets_of_silent {b : Nat} {n : Node Nat} (h : b ∈ n.silentTargets p) :
    b ∈ n.targets := by
  unfold Node.silentTargets at h
  split at h
  · exact h
  · split at h
    · exact h
    · cases h
  · split at h
    · exact h
    · cases h
  · cases h

theorem mem_targets_of_move {b : UInt8} {c : Nat} {n : Node Nat} (h : n.move? b = some c) :
    c ∈ n.targets := by
  cases n with
  | consume label next =>
    simp only [Node.move?, Option.ite_none_right_eq_some] at h
    simpa [Node.targets] using h.2.symm
  | split | require | accept => cases h

theorem WellFormed.silent_lt (wf : m.WellFormed) {a b : Nat} (h : m.Silent p a b) : b < m.size := by
  obtain ⟨n, found, target⟩ := h
  exact wf.target_lt found (mem_targets_of_silent target)

theorem WellFormed.moves_lt (wf : m.WellFormed) {b : UInt8} {a c : Nat} (h : m.Moves b a c) :
    c < m.size := by
  obtain ⟨n, found, moves⟩ := h
  exact wf.target_lt found (mem_targets_of_move moves)

theorem Closed.reaches (h : m.Closed p nodes pending) {a c : Nat} (inside : nodes a)
    (reach : m.Reaches p a c) : nodes c ∨ ∃ b ∈ pending, m.Reaches p b c := by
  induction reach with
  | refl => exact .inl inside
  | @tail x y _ last ih =>
    obtain here | ⟨b, waits, far⟩ := ih
    · obtain here | waits := h x y here last
      · exact .inl here
      · exact .inr ⟨y, waits, .refl⟩
    · exact .inr ⟨b, waits, far.tail last⟩

theorem closed_nothing : m.Closed p (fun _ => False) [] :=
  fun _ _ none => none.elim

theorem Closed.add_reached (h : m.Closed p nodes []) (starts : Nat → Prop) :
    m.Closed p (fun a => nodes a ∨ ∃ b, starts b ∧ m.Reaches p b a) [] := by
  rintro a c (inside | ⟨b, begins, far⟩) step
  · exact .inl (.inl (by simpa using h a c inside step))
  · exact .inl (.inr ⟨b, begins, far.tail step⟩)

theorem Closed.skip {a : Nat} {rest : List Nat} (h : m.Closed p nodes (a :: rest)) (seen : nodes a) :
    m.Closed p nodes rest := by
  intro b c here step
  obtain inside | waits := h b c here step
  · exact .inl inside
  · obtain _ | ⟨_, later⟩ := waits
    · exact .inl seen
    · exact .inr later

theorem Closed.take {a : Nat} {n : Node Nat} {rest : List Nat} (h : m.Closed p nodes (a :: rest))
    (found : m.nodes[a]? = some n) :
    m.Closed p (fun b => nodes b ∨ b = a) (n.silentTargets p ++ rest) := by
  intro b c here step
  obtain inside | rfl := here
  · obtain inside | waits := h b c inside step
    · exact .inl (.inl inside)
    · obtain _ | ⟨_, later⟩ := waits
      · exact .inl (.inr rfl)
      · exact .inr (List.mem_append_right _ later)
  · exact .inr (List.mem_append_left _ ((silent_iff found).1 step))

/-- Exploring finds what is reached from the pending nodes, and nothing stays pending. -/
theorem explore_gains (wf : m.WellFormed) {set : NodeSet} (widest : Nat) (room : set.marks.size = m.size)
    (bounds : ∀ a ∈ pending, a < m.size)
    (closed : m.Closed p (fun a => set.isVisited a = true) pending) :
    ∃ set' widest', m.explore p set widest pending = (set', [], widest', true) ∧
      set.Gains set' m p (fun a => ∃ b ∈ pending, m.Reaches p b a) := by
  fun_induction explore m p set widest pending with
  | case1 set widest => exact ⟨set, widest, rfl, NodeSet.gains_nothing.congr (by simp)⟩
  | case2 set widest a rest bound seen ih =>
    have closed' := closed.skip seen
    obtain ⟨set', widest', result, gains⟩ :=
      ih room (fun b later => bounds b (List.mem_cons_of_mem a later)) closed'
    refine ⟨set', widest', result, gains.congr fun c => ?_⟩
    simp only [List.mem_cons, or_and_right, exists_or, exists_eq_left]
    constructor
    · exact fun h => h.imp_right .inr
    · rintro (here | far | later)
      · exact .inl here
      · exact closed'.reaches seen far
      · exact .inr later
  | case3 set widest a rest bound new missing =>
    have isNode := bounds a (List.mem_cons_self ..)
    rw [Array.getElem?_eq_none_iff] at missing
    exact absurd isNode (Nat.not_lt.2 missing)
  | case4 set widest a rest bound new n found pending visited =>
    rename_i ih
    -- the invariant survives: the targets of the new node are pending from now on
    have first := NodeSet.gains_visit (p := p) new found bound
    have bounds' : ∀ b ∈ n.silentTargets p ++ rest, b < m.size := by
      intro b waits
      obtain target | later := List.mem_append.1 waits
      · exact wf.silent_lt ⟨n, found, target⟩
      · exact bounds b (List.mem_cons_of_mem a later)
    have closed' := closed.take found
    rw [← funext fun b => propext (first.visited_iff b)] at closed'
    obtain ⟨set', widest', result, gains⟩ := ih (first.size_eq.trans room) bounds' closed'
    refine ⟨set', widest', result, (first.trans gains).congr fun c => or_congr_right ?_⟩
    simp only [pending, List.mem_append, List.mem_cons, or_and_right, exists_or, exists_eq_left,
      reaches_iff found, or_assoc]
  | case5 set widest a rest tooFar =>
    have isNode := bounds a (List.mem_cons_self ..)
    rw [room] at tooFar
    exact absurd isNode tooFar

theorem explore_spec (wf : m.WellFormed) {set : NodeSet} (widest : Nat) (holds : set.Holds m p nodes)
    (bounds : ∀ a ∈ pending, a < m.size) (closed : m.Closed p nodes pending) :
    ∃ set' widest', m.explore p set widest pending = (set', [], widest', true) ∧
      set'.Holds m p (fun a => nodes a ∨ ∃ b ∈ pending, m.Reaches p b a) := by
  have visited : (fun a => set.isVisited a = true) = nodes :=
    funext fun a => propext (holds.visited_iff a)
  obtain ⟨set', widest', result, gains⟩ :=
    explore_gains wf widest holds.fits.size_eq bounds (visited ▸ closed)
  exact ⟨set', widest', result, gains.holds holds⟩

end Automaton

structure Walk.Covers (w : Walk) (m : Automaton) (p : Place) (nodes : Nat → Prop) : Prop where
  finished : w.finished = true
  left_eq : w.stack.left = []
  holds : w.set.Holds m p nodes

theorem Walk.Covers.congr {w : Walk} {m : Automaton} {p : Place} {nodes others : Nat → Prop}
    (h : w.Covers m p nodes) (same : ∀ a, nodes a ↔ others a) : w.Covers m p others :=
  ⟨h.finished, h.left_eq, h.holds.congr same⟩

namespace Automaton

variable {m : Automaton} {p : Place} {nodes : Nat → Prop} {set : NodeSet} {stack : Stack}

theorem closure_pending (wf : m.WellFormed) (held : Nat) (holds : set.Holds m p nodes) {id : Nat}
    (bounds : ∀ a ∈ id :: stack.left, a < m.size) (closed : m.Closed p nodes (id :: stack.left)) :
    (m.closure p held set stack id).Covers m p
      (fun a => nodes a ∨ ∃ b ∈ id :: stack.left, m.Reaches p b a) := by
  obtain ⟨set', widest', result, holds'⟩ :=
    explore_spec wf (id :: stack.left).length holds bounds closed
  simp only [closure, result]
  exact ⟨rfl, rfl, holds'⟩

theorem closure_spec (wf : m.WellFormed) (held : Nat) (empty : stack.left = [])
    (holds : set.Holds m p nodes) (closed : m.Closed p nodes []) {id : Nat} (bound : id < m.size) :
    (m.closure p held set stack id).Covers m p (fun a => nodes a ∨ m.Reaches p id a) := by
  have bounds : ∀ a ∈ id :: stack.left, a < m.size := by simpa [empty] using bound
  have closed' : m.Closed p nodes (id :: stack.left) :=
    fun a b inside step => .inl (by simpa using closed a b inside step)
  exact (closure_pending wf held holds bounds closed').congr fun a => by simp [empty]

theorem explore_new {m : Automaton} {p : Place} {set : NodeSet} {id : Nat} (h : id < set.marks.size)
    (new : ¬set.isVisited id = true) {node : Node Nat} (found : m.nodes[id]? = some node) (widest : Nat)
    (rest : List Nat) : m.explore p set widest (id :: rest) =
      m.explore p (if node.isMember p then (set.visit id h).addMember id else set.visit id h)
        (max widest (node.silentTargets p ++ rest).length) (node.silentTargets p ++ rest) := by
  rw [explore, dif_pos h, if_neg new]
  simp only [found]

theorem length_toList_append {hand : Option Nat} {left : List Nat} {n : Nat}
    (enough : left.length + 1 ≤ n) : (hand.toList ++ left).length ≤ n := by
  cases hand with
  | none => exact Nat.le_of_succ_le enough
  | some => exact enough

theorem explore_on {m : Automaton} {p : Place} {set : NodeSet} {id : Nat} (h : id < set.marks.size)
    (new : ¬set.isVisited id = true) {node : Node Nat} (found : m.nodes[id]? = some node) (hand : Option Nat)
    (targets : node.silentTargets p = hand.toList) {widest : Nat} {rest : List Nat}
    (enough : rest.length + 1 ≤ widest) : m.explore p set widest (id :: rest) =
      m.explore p (if node.isMember p then (set.visit id h).addMember id else set.visit id h) widest
        (hand.toList ++ rest) := by
  rw [explore_new h new found, targets, Nat.max_eq_left (length_toList_append enough)]

/-- With the node in hand before those on the stack, the walk of a simulation is the walk that has all of
them on its stack. Only a split makes the stack grow, and by one node less. -/
theorem follow_of_explore {m : Automaton} {atStart atEnd finished : Bool} {set set' : NodeSet}
    {peak widest widest' base : Nat} {left left' : List Nat} {hand : Option Nat}
    (walked : m.explore ⟨atStart, some atEnd⟩ set widest (hand.toList ++ left) =
      (set', left', widest', finished))
    (enough : (hand.toList ++ left).length ≤ widest) (peak_eq : peak = max base (widest - 1)) :
    m.follow atStart atEnd set peak left hand =
      (set', left', max base (widest' - 1), finished) := by
  fun_induction follow m atStart atEnd set peak left hand generalizing widest with
  | case1 set peak =>
    rw [Option.toList_none, List.nil_append, explore] at walked
    cases walked
    rw [peak_eq]
  | case2 set peak id rest ih => exact ih walked enough peak_eq
  | case3 set peak left id h visited ih =>
    rw [Option.toList_some, List.singleton_append, explore, dif_pos h, if_pos visited] at walked
    exact ih walked (length_toList_append enough) peak_eq
  | case4 set peak left id h new none =>
    rw [Option.toList_some, List.singleton_append, explore, dif_pos h, if_neg new] at walked
    simp only [none] at walked
    cases walked
    rw [peak_eq]
  | case5 set peak left id h new first second found ih =>
    -- only a split makes the stack grow, and one of its targets is taken in hand
    rw [Option.toList_some, List.singleton_append, explore_new h new found] at walked
    refine ih walked (Nat.le_max_right _ _) ?_
    simp only [Node.silentTargets, List.length_append, List.length_cons, List.length_nil]
    omega
  | case6 set peak left id h new next found ih | case7 set peak left id h new next found ih =>
    rw [Option.toList_some, List.singleton_append] at walked
    refine ih ((explore_on h new found _ ?_ enough).symm.trans walked) (length_toList_append enough)
      peak_eq
    simp only [Node.silentTargets, Option.some.injEq]
    split <;> rfl
  | case8 set peak left id h new _ _ found ih | case9 set peak left id h new found ih =>
    rw [Option.toList_some, List.singleton_append] at walked
    exact ih ((explore_on h new found none rfl enough).symm.trans walked) (length_toList_append enough)
      peak_eq
  | case10 set peak left id h =>
    rw [Option.toList_some, List.singleton_append, explore, dif_neg h] at walked
    cases walked
    rw [peak_eq]

theorem directClosure_eq (m : Automaton) (atStart atEnd : Bool) :
    m.directClosure atStart atEnd = m.closure ⟨atStart, some atEnd⟩ 1 := by
  funext set stack id
  rcases walked : m.explore ⟨atStart, some atEnd⟩ set (id :: stack.left).length (id :: stack.left) with
    ⟨set', left', widest', finished⟩
  have followed : m.follow atStart atEnd set (max stack.peak (id :: stack.left).length) (id :: stack.left)
      none = (set', left', max (max stack.peak (id :: stack.left).length) (widest' - 1), finished) :=
    follow_of_explore walked (Nat.le_refl _) (by omega)
  simp only [directClosure, closure, walked, followed, Nat.max_assoc]

theorem advance_spec (wf : m.WellFormed) (held : Nat) (b : UInt8) {ids : List Nat}
    (empty : stack.left = []) (holds : set.Holds m p nodes) (closed : m.Closed p nodes [])
    (bounds : ∀ a ∈ ids, a < m.size) :
    (m.advance (m.closure p held) b set stack ids).Covers m p
      (fun a => nodes a ∨ ∃ x ∈ ids, ∃ c, m.Moves b x c ∧ m.Reaches p c a) := by
  induction ids generalizing set stack nodes with
  | nil => exact ⟨rfl, empty, holds.congr (by simp)⟩
  | cons id ids ih =>
    have bound := bounds id (List.mem_cons_self ..)
    have bounds' : ∀ a ∈ ids, a < m.size := fun a later => bounds a (List.mem_cons_of_mem id later)
    have found : m.nodes[id]? = some m.nodes[id] := Array.getElem?_eq_getElem bound
    simp only [advance, found]
    cases moves : m.nodes[id].move? b with
    | none =>
      refine (ih empty holds closed bounds').congr fun a => ?_
      simp [Moves, found, moves]
    | some target =>
      have inside : target < m.size := wf.moves_lt ⟨_, found, moves⟩
      have walk := closure_spec wf held empty holds closed inside
      have closed' := closed.add_reached (fun c => c = target)
      simp only [exists_eq_left] at closed'
      simp only [walk.finished, if_true]
      refine (ih walk.left_eq walk.holds closed' bounds').congr fun a => ?_
      simp [Moves, found, moves, or_assoc]

end Automaton

end ByteRegex
