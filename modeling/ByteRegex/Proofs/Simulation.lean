import ByteRegex.Proofs.Reach
import ByteRegex.Proofs.Runs
import ByteRegex.Search.Simulation

/-! What a simulation answers. The active nodes at a place are those that some run reaches there, for
every place and whatever earlier searches left in the cache. Nodes that a search before has left on the
stack are sources of runs as well, next to the start node. -/

namespace ByteRegex

open Relation

def Place.within (haystack : List UInt8) (i : Nat) : Place :=
  ⟨decide (i = 0), some (decide (i = haystack.length))⟩

namespace Automaton

def Active (m : Automaton) (haystack : List UInt8) (i a : Nat) : Prop :=
  ReflTransGen (m.Step haystack) (m.start, 0) (a, i)

/-- Whether a run from one of the sources is at the node when the given number of bytes is read. -/
def ActiveFrom (m : Automaton) (haystack : List UInt8) (sources : List Nat) (i a : Nat) : Prop :=
  ∃ s ∈ sources, ReflTransGen (m.Step haystack) (s, 0) (a, i)

variable {m : Automaton} {haystack : List UInt8} {sources : List Nat}

theorem step_of_silent {i a b : Nat} (h : m.Silent (.within haystack i) a b) :
    m.Step haystack (a, i) (b, i) := by
  obtain ⟨n, found, target⟩ := h
  cases n with
  | consume | accept => cases target
  | split x y =>
    simp only [Node.silentTargets, List.mem_cons, List.not_mem_nil, or_false] at target
    obtain rfl | rfl := target
    · exact .first found
    · exact .second found
  | require anchor next =>
    cases anchor <;>
      simp only [Node.silentTargets, Place.within, List.mem_ite_nil_right, List.mem_singleton,
        Option.some.injEq, decide_eq_true_iff] at target
    · obtain ⟨holds, rfl⟩ := target
      exact .pass found holds
    · obtain ⟨holds, rfl⟩ := target
      exact .pass found holds

theorem silent_or_moves_of_step {i j a b : Nat} (h : m.Step haystack (a, i) (b, j)) :
    j = i ∧ m.Silent (.within haystack i) a b ∨
      j = i + 1 ∧ ∃ c, haystack[i]? = some c ∧ m.Moves c a b := by
  cases h with
  | read node byte reads => exact .inr ⟨rfl, _, byte, _, node, by simp [Node.move?, reads]⟩
  | first node => exact .inl ⟨rfl, _, node, by simp [Node.silentTargets]⟩
  | second node => exact .inl ⟨rfl, _, node, by simp [Node.silentTargets]⟩
  | @pass _ _ _ anchor node holds =>
    refine .inl ⟨rfl, _, node, ?_⟩
    cases anchor with
    | textStart =>
      have start : i = 0 := holds
      simp [Node.silentTargets, Place.within, start]
    | textEnd =>
      have stop : i = haystack.length := holds
      simp [Node.silentTargets, Place.within, stop]

theorem step_of_moves {i a b : Nat} {c : UInt8} (byte : haystack[i]? = some c) (h : m.Moves c a b) :
    m.Step haystack (a, i) (b, i + 1) := by
  obtain ⟨n, found, moves⟩ := h
  cases n with
  | consume label next =>
    simp only [Node.move?, Option.ite_none_right_eq_some, Option.some.injEq] at moves
    obtain ⟨reads, rfl⟩ := moves
    exact .read found byte reads
  | split | require | accept => cases moves

theorem run_of_reaches {i a b : Nat} (h : m.Reaches (.within haystack i) a b) :
    ReflTransGen (m.Step haystack) (a, i) (b, i) := by
  induction h with
  | refl => exact .refl
  | tail _ last ih => exact ih.tail (step_of_silent last)

theorem activeFrom_zero {a : Nat} : m.ActiveFrom haystack sources 0 a ↔
    ∃ s ∈ sources, m.Reaches (.within haystack 0) s a := by
  refine exists_congr fun s => and_congr_right fun _ => ⟨fun run => ?_, run_of_reaches⟩
  generalize goal : (a, 0) = c at run
  induction run generalizing a with
  | refl =>
    cases goal
    exact .refl
  | @tail x c before last ih =>
    cases goal
    obtain ⟨same, silent⟩ | ⟨later, -⟩ := silent_or_moves_of_step last
    · obtain ⟨x, i⟩ := x
      cases same
      exact (ih rfl).tail silent
    · cases later

theorem activeFrom_succ {i a : Nat} : m.ActiveFrom haystack sources (i + 1) a ↔
    ∃ b, haystack[i]? = some b ∧ ∃ x, m.ActiveFrom haystack sources i x ∧
      ∃ c, m.Moves b x c ∧ m.Reaches (.within haystack (i + 1)) c a := by
  constructor
  · rintro ⟨s, source, run⟩
    generalize goal : (a, i + 1) = d at run
    induction run generalizing a with
    | refl => cases goal
    | @tail x d before last ih =>
      obtain ⟨x, k⟩ := x
      cases goal
      obtain ⟨same, silent⟩ | ⟨later, b, byte, moves⟩ := silent_or_moves_of_step last
      · -- a silent step stays at its place, and the byte was read before it
        cases same
        obtain ⟨b, byte, y, active, c, moves, reach⟩ := ih rfl
        exact ⟨b, byte, y, active, c, moves, reach.tail silent⟩
      · cases later
        exact ⟨b, byte, x, ⟨s, source, before⟩, a, moves, .refl⟩
  · rintro ⟨b, byte, x, ⟨s, source, run⟩, c, moves, reach⟩
    exact ⟨s, source, (run.tail (step_of_moves byte moves)).trans (run_of_reaches reach)⟩

theorem activeFrom_start {i a : Nat} :
    m.ActiveFrom haystack [m.start] i a ↔ m.Active haystack i a := by
  simp only [ActiveFrom, List.mem_singleton, exists_eq_left, Active]

theorem active_zero {a : Nat} :
    m.Active haystack 0 a ↔ m.Reaches (.within haystack 0) m.start a := by
  rw [← activeFrom_start, activeFrom_zero]
  simp only [List.mem_singleton, exists_eq_left]

theorem active_succ {i a : Nat} : m.Active haystack (i + 1) a ↔
    ∃ b, haystack[i]? = some b ∧ ∃ x, m.Active haystack i x ∧
      ∃ c, m.Moves b x c ∧ m.Reaches (.within haystack (i + 1)) c a := by
  simp only [← activeFrom_start]
  exact activeFrom_succ

theorem counts_of_moves {p : Place} {b : UInt8} {x c : Nat} (h : m.Moves b x c) : m.Counts p x := by
  obtain ⟨n, found, moves⟩ := h
  cases n with
  | consume label next => exact ⟨_, found, rfl⟩
  | split | require | accept => cases moves

theorem not_activeFrom_of_none {i : Nat} {p : Place}
    (none : ∀ a, m.ActiveFrom haystack sources i a → ¬m.Counts p a) (k a : Nat) :
    ¬m.ActiveFrom haystack sources (i + k + 1) a := by
  induction k generalizing a with
  | zero =>
    intro active
    obtain ⟨b, -, x, before, c, moves, -⟩ := activeFrom_succ.1 active
    exact none x before (counts_of_moves moves)
  | succ k ih =>
    intro active
    obtain ⟨b, -, x, before, -⟩ := activeFrom_succ.1 active
    exact ih x before

end Automaton

namespace Simulation

/-- A cache fits an automaton when both its sets do and no walk broke off. -/
structure Cache.Fits (c : Cache) (m : Automaton) : Prop where
  left_eq : c.stack.left = []
  active : c.active.Fits m
  previous : c.previous.Fits m

variable {m : Automaton} {haystack : List UInt8}

theorem fits_ofAutomaton : (Cache.ofAutomaton m).Fits m :=
  ⟨rfl, NodeSet.fits_ofSize, NodeSet.fits_ofSize⟩

theorem verdict_eq {c : Cache} {p : Place} {nodes : Nat → Prop} (wf : m.WellFormed)
    (holds : c.active.Holds m p nodes) :
    ∃ b, verdict m c = some b ∧ (b = true ↔ nodes m.accept) := by
  have found := wf.accept_iff.2 (Eq.refl m.accept)
  have bound : m.accept < c.active.marks.size := by
    rw [holds.fits.size_eq]
    exact (Array.getElem?_eq_some_iff.1 found).1
  refine ⟨c.active.marks[m.accept] == c.active.era, ?_, ?_⟩
  · simp [verdict, bound]
  · rw [← holds.visited_iff]
    simp [NodeSet.isVisited, bound]

theorem activeFrom_succ_members {s : NodeSet} {i : Nat} {b : UInt8} (byte : haystack[i]? = some b)
    (holds : s.Holds m (.within haystack i) (m.ActiveFrom haystack sources i)) (a : Nat) :
    m.ActiveFrom haystack sources (i + 1) a ↔ False ∨ ∃ x ∈ s.members.toList,
      ∃ c, m.Moves b x c ∧ m.Reaches (.within haystack (i + 1)) c a := by
  rw [Automaton.activeFrom_succ, byte]
  simp only [Option.some.injEq, exists_eq_left', Array.mem_toList_iff, holds.members_iff, false_or]
  constructor
  · rintro ⟨x, active, c, moves, reach⟩
    exact ⟨x, ⟨active, Automaton.counts_of_moves moves⟩, c, moves, reach⟩
  · rintro ⟨x, ⟨active, -⟩, rest⟩
    exact ⟨x, active, rest⟩

/-- The cache of a run at a place of the haystack. The active nodes are those of runs from the sources,
and no walk broke off. -/
structure Cache.At (c : Cache) (m : Automaton) (haystack : List UInt8) (sources : List Nat)
    (i : Nat) : Prop where
  left_eq : c.stack.left = []
  active : c.active.Holds m (.within haystack i) (m.ActiveFrom haystack sources i)
  previous : c.previous.Fits m

theorem Cache.At.fits {c : Cache} {i : Nat} (h : c.At m haystack sources i) : c.Fits m :=
  ⟨h.left_eq, h.active.fits, h.previous⟩

theorem Cache.At.read (wf : m.WellFormed) {c : Cache} {i : Nat} {b : UInt8} {bytes : List UInt8}
    (h : c.At m haystack sources i) (rest : haystack.drop i = b :: bytes) {walk : Walk}
    (walked : m.advance (m.closure ⟨false, some bytes.isEmpty⟩ 1) b c.previous.clear c.stack
      c.active.members.toList = walk) :
    walk.finished = true ∧ Cache.At ⟨walk.stack, walk.set, c.active⟩ m haystack sources (i + 1) := by
  have byte : haystack[i]? = some b := by
    rw [← List.head?_drop, rest]
    rfl
  have before : i < haystack.length := (List.getElem?_eq_some_iff.1 byte).1
  have rest' : bytes = haystack.drop (i + 1) := by
    rw [← List.tail_drop, rest]
    rfl
  have place : (⟨false, some bytes.isEmpty⟩ : Place) = .within haystack (i + 1) := by
    have atEnd : bytes.isEmpty = decide (i + 1 = haystack.length) := by
      rw [rest', Bool.eq_iff_iff, List.isEmpty_iff, List.drop_eq_nil_iff, decide_eq_true_iff]
      omega
    rw [Place.within, atEnd]
    rfl
  have bounds : ∀ a ∈ c.active.members.toList, a < m.size := by
    intro a member
    obtain ⟨n, isNode, -⟩ := ((h.active.members_iff a).1 (Array.mem_toList_iff.1 member)).2
    exact (Array.getElem?_eq_some_iff.1 isNode).1
  have covers := Automaton.advance_spec wf 1 b h.left_eq
    (h.previous.clear (p := .within haystack (i + 1))) Automaton.closed_nothing bounds
  rw [← place, walked, place] at covers
  have moved := covers.congr fun a => (activeFrom_succ_members byte h.active a).symm
  exact ⟨moved.finished, moved.left_eq, moved.holds, h.active.fits⟩

theorem run_cons (m : Automaton) (c : Cache) (b : UInt8) (bytes : List UInt8) :
    run m c (b :: bytes) =
      if c.active.members.isEmpty then (some false, c)
      else
        let walk := m.advance (m.closure ⟨false, some bytes.isEmpty⟩ 1) b c.previous.clear c.stack
          c.active.members.toList
        if walk.finished then run m ⟨walk.stack, walk.set, c.active⟩ bytes
        else (none, ⟨walk.stack, c.active, walk.set⟩) := by
  rw [← Automaton.directClosure_eq]
  rfl

/-- Where a run comes to a halt, and the bytes that it leaves unread. It reads on while a node is active,
unless a walk breaks off. -/
def halt (m : Automaton) : Cache → List UInt8 → Cache × List UInt8
  | c, [] => (c, [])
  | ⟨stack, active, previous⟩, b :: bytes =>
    let walk :=
      m.advance (m.closure ⟨false, some bytes.isEmpty⟩ 1) b previous.clear stack active.members.toList
    if active.members.isEmpty || !walk.finished then (⟨stack, active, previous⟩, b :: bytes)
    else halt m ⟨walk.stack, walk.set, active⟩ bytes

theorem run_halt (m : Automaton) (c : Cache) (bytes : List UInt8) :
    run m c bytes = run m (halt m c bytes).1 (halt m c bytes).2 := by
  induction bytes generalizing c with
  | nil => rfl
  | cons b bytes ih =>
    obtain ⟨stack, active, previous⟩ := c
    simp only [halt]
    split
    case isTrue => rfl
    case isFalse goesOn =>
      simp only [Bool.or_eq_true, Bool.not_eq_true', not_or, Bool.not_eq_true,
        Bool.not_eq_false] at goesOn
      rw [← ih, run_cons, if_neg (by simp [goesOn.1])]
      simp only [goesOn.2, if_true]

theorem halt_spec (wf : m.WellFormed) {c : Cache} {i : Nat} (bound : i ≤ haystack.length)
    (h : c.At m haystack sources i) : ∃ c' j, halt m c (haystack.drop i) = (c', haystack.drop j) ∧
      j ≤ haystack.length ∧ c'.At m haystack sources j ∧
      (j = haystack.length ∨ c'.active.members = #[]) := by
  generalize rest : haystack.drop i = bytes
  induction bytes generalizing c i with
  | nil =>
    have last : haystack.length ≤ i := List.drop_eq_nil_iff.1 rest
    exact ⟨c, i, by rw [rest, halt], bound, h, .inl (Nat.le_antisymm bound last)⟩
  | cons b bytes ih =>
    obtain ⟨finished, next⟩ := h.read wf rest rfl
    obtain ⟨stack, active, previous⟩ := c
    have before : i < haystack.length := by
      have more : haystack.drop i ≠ [] := by simp [rest]
      simpa using more
    have rest' : haystack.drop (i + 1) = bytes := by
      rw [← List.tail_drop, rest]
      rfl
    simp only [halt]
    split
    case isTrue stops =>
      -- the walk came to its end, so it is the set that stops the run
      have idle : active.members.isEmpty = true := by simpa [finished] using stops
      exact ⟨_, i, by rw [rest], bound, h, .inr (Array.isEmpty_iff.1 idle)⟩
    case isFalse => exact ih before next rest'

theorem run_spec (wf : m.WellFormed) {c : Cache} {i : Nat} (bound : i ≤ haystack.length)
    (h : c.At m haystack sources i) : ∃ b,
      run m c (haystack.drop i) = (some b, (halt m c (haystack.drop i)).1) ∧
        (b = true ↔ m.ActiveFrom haystack sources haystack.length m.accept) := by
  obtain ⟨c', j, halts, bound', here, stops⟩ := halt_spec wf bound h
  rw [run_halt, halts]
  by_cases last : j = haystack.length
  · subst last
    obtain ⟨b, result, answer⟩ := verdict_eq wf here.active
    refine ⟨b, ?_, answer⟩
    rw [List.drop_length, run, result]
  · have idle := stops.resolve_left last
    have before : j < haystack.length := Nat.lt_of_le_of_ne bound' last
    refine ⟨false, ?_, iff_of_false (by simp) ?_⟩
    · rw [List.drop_eq_getElem_cons before]
      rw [run_cons, if_pos (Array.isEmpty_iff.2 idle)]
    -- no active node counts here, and so none is active at any later place
    · have none (a : Nat) (active : m.ActiveFrom haystack sources j a) :
          ¬m.Counts (.within haystack j) a := by
        intro counts
        have member := (here.active.members_iff a).2 ⟨active, counts⟩
        rw [idle] at member
        exact Array.not_mem_empty a member
      have never := Automaton.not_activeFrom_of_none none (haystack.length - j - 1) m.accept
      rwa [show j + (haystack.length - j - 1) + 1 = haystack.length by omega] at never

def begun (m : Automaton) (c : Cache) (haystack : List UInt8) : Cache :=
  let walk := m.closure ⟨true, some haystack.isEmpty⟩ 1 c.active.clear c.stack m.start
  ⟨walk.stack, walk.set, c.previous.clear⟩

theorem search_begun (m : Automaton) (c : Cache) (haystack : List UInt8) :
    search m c haystack =
      if (m.closure ⟨true, some haystack.isEmpty⟩ 1 c.active.clear c.stack m.start).finished then
        run m (begun m c haystack) haystack
      else (none, begun m c haystack) := by
  rw [begun, ← Automaton.directClosure_eq]
  rfl

theorem begun_spec (wf : m.WellFormed) {c : Cache} (active : c.active.Fits m)
    (previous : c.previous.Fits m) (bounds : ∀ a ∈ c.stack.left, a < m.size) (haystack : List UInt8) :
    (begun m c haystack).At m haystack (m.start :: c.stack.left) 0 ∧
      search m c haystack = run m (begun m c haystack) haystack := by
  have place : (⟨true, some haystack.isEmpty⟩ : Place) = .within haystack 0 := by
    have atEnd : haystack.isEmpty = decide (0 = haystack.length) := by
      cases haystack <;> rfl
    rw [Place.within, atEnd]
    rfl
  have bounds' : ∀ a ∈ m.start :: c.stack.left, a < m.size :=
    List.forall_mem_cons.2 ⟨wf.start_lt, bounds⟩
  have walk : (m.closure (.within haystack 0) 1 c.active.clear c.stack m.start).Covers m
      (.within haystack 0) (m.ActiveFrom haystack (m.start :: c.stack.left) 0) := by
    refine (Automaton.closure_pending wf 1 active.clear bounds'
      fun _ _ none => none.elim).congr fun a => ?_
    rw [false_or, Automaton.activeFrom_zero]
  constructor
  · simp only [begun, place]
    exact ⟨walk.left_eq, walk.holds, previous.cleared⟩
  · rw [search_begun, place, if_pos walk.finished]

/-- A search answers whether the automaton accepts, whatever earlier searches left behind. -/
theorem search_spec (wf : m.WellFormed) {c : Cache} (fits : c.Fits m) (haystack : List UInt8) :
    ∃ b c', search m c haystack = (some b, c') ∧ (b = true ↔ m.Accepts haystack) ∧ c'.Fits m := by
  have bounds : ∀ a ∈ c.stack.left, a < m.size := by simp [fits.left_eq]
  obtain ⟨here, result⟩ := begun_spec wf fits.active fits.previous bounds haystack
  obtain ⟨c', j, halts, -, here', -⟩ := halt_spec wf (Nat.zero_le _) here
  obtain ⟨b, ran, answer⟩ := run_spec wf (Nat.zero_le _) here
  rw [List.drop_zero] at halts ran
  refine ⟨b, c', ?_, ?_, here'.fits⟩
  · rw [result, ran, halts]
  · rw [answer, fits.left_eq, Automaton.activeFrom_start]
    rfl

theorem search_eq (wf : m.WellFormed) {c : Cache} (fits : c.Fits m) (haystack : List UInt8) :
    (search m c haystack).1 = some (m.accepts haystack) := by
  obtain ⟨b, c', result, answer, -⟩ := search_spec wf fits haystack
  obtain ⟨b', c'', result', answer', -⟩ := search_spec wf fits_ofAutomaton haystack
  have same : b = b' := Bool.eq_iff_iff.2 (answer.trans answer'.symm)
  rw [Automaton.accepts, result, result', same]
  cases b' <;> rfl

theorem search_fits (wf : m.WellFormed) {c : Cache} (fits : c.Fits m) (haystack : List UInt8) :
    (search m c haystack).2.Fits m := by
  obtain ⟨b, c', result, -, fits'⟩ := search_spec wf fits haystack
  rw [result]
  exact fits'

end Simulation

theorem Automaton.accepts_iff {m : Automaton} (wf : m.WellFormed) (haystack : List UInt8) :
    m.accepts haystack = true ↔ m.Accepts haystack := by
  obtain ⟨b, c', result, answer, -⟩ :=
    Simulation.search_spec wf Simulation.fits_ofAutomaton haystack
  rw [accepts, result, ← answer]
  cases b <;> simp

end ByteRegex
