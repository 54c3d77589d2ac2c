import ByteRegex.Proofs.Simulation

/-! The sets of nodes that words lead to when end anchors are not decided. While a haystack goes on
they are the active nodes that count. When it ends, following the end anchors of the set finds out
whether the haystack is accepted. -/

namespace ByteRegex

open Relation

namespace Automaton

def Begins (m : Automaton) (a : Nat) : Prop :=
  m.Reaches ⟨true, none⟩ m.start a ∧ m.Counts ⟨true, none⟩ a

def Follows (m : Automaton) (nodes : Nat → Prop) (b : UInt8) (a : Nat) : Prop :=
  (∃ x, nodes x ∧ ∃ c, m.Moves b x c ∧ m.Reaches ⟨false, none⟩ c a) ∧ m.Counts ⟨false, none⟩ a

/-- The nodes of the row to which a word leads. -/
def Subset (m : Automaton) (word : List UInt8) : Nat → Prop :=
  word.foldl m.Follows m.Begins

/-- Whether a haystack that ends with the given nodes is accepted. -/
def EndsIn (m : Automaton) (atStart : Bool) (nodes : Nat → Prop) : Prop :=
  ∃ a, nodes a ∧ m.Reaches ⟨atStart, some true⟩ a m.accept

variable {m : Automaton} {haystack : List UInt8} {p q : Place}

theorem subset_concat (word : List UInt8) (b : UInt8) :
    m.Subset (word ++ [b]) = m.Follows (m.Subset word) b := by
  rw [Subset, List.foldl_append]
  rfl

theorem Silent.mono {a b : Nat} (h : m.Silent p a b) (starts : p.atStart = true → q.atStart = true)
    (ends : p.atEnd = some true → q.atEnd = some true) : m.Silent q a b := by
  obtain ⟨n, found, target⟩ := h
  refine ⟨n, found, ?_⟩
  cases n with
  | consume | accept => cases target
  | split x y => exact target
  | require anchor next =>
    cases anchor <;> simp only [Node.silentTargets, List.mem_ite_nil_right] at target ⊢
    · exact ⟨starts target.1, target.2⟩
    · exact ⟨ends target.1, target.2⟩

theorem Reaches.mono {a b : Nat} (h : m.Reaches p a b) (starts : p.atStart = true → q.atStart = true)
    (ends : p.atEnd = some true → q.atEnd = some true) : m.Reaches q a b := by
  induction h with
  | refl => exact .refl
  | tail _ last ih => exact ih.tail (last.mono starts ends)

theorem reaches_congr {a b : Nat} (starts : p.atStart = q.atStart)
    (ends : p.atEnd = some true ↔ q.atEnd = some true) : m.Reaches p a b ↔ m.Reaches q a b :=
  ⟨fun run => run.mono (fun h => starts ▸ h) ends.1, fun run => run.mono (fun h => starts ▸ h) ends.2⟩

theorem accept_counts (wf : m.WellFormed) : m.Counts p m.accept :=
  ⟨_, wf.accept_iff.2 rfl, rfl⟩

/-- What reaches the accepting node at the end goes through a node that counts before the end is
known. -/
theorem reaches_accept_iff (wf : m.WellFormed) {s : Bool} {c : Nat} :
    m.Reaches ⟨s, some true⟩ c m.accept ↔
      m.EndsIn s fun a => m.Reaches ⟨s, none⟩ c a ∧ m.Counts ⟨s, none⟩ a := by
  constructor
  · intro run
    induction run using ReflTransGen.head_induction_on with
    | refl => exact ⟨m.accept, ⟨.refl, accept_counts wf⟩, .refl⟩
    | @head x y step rest ih =>
      obtain ⟨n, found, target⟩ := step
      obtain ⟨a, ⟨reach, counts⟩, far⟩ := ih
      cases n with
      | consume | accept => cases target
      | split => exact ⟨a, ⟨.head ⟨_, found, target⟩ reach, counts⟩, far⟩
      | require anchor next =>
        cases anchor with
        | textStart => exact ⟨a, ⟨.head ⟨_, found, target⟩ reach, counts⟩, far⟩
        -- the last anchor before the accepting node counts while the end is unknown
        | textEnd => exact ⟨x, ⟨.refl, _, found, rfl⟩, .head ⟨_, found, target⟩ rest⟩
  · rintro ⟨a, ⟨reach, -⟩, far⟩
    have reach' : m.Reaches ⟨s, some true⟩ c a := reach.mono id (by simp)
    exact reach'.trans far

/-- While a haystack goes on, its words lead to the active nodes that count. -/
theorem subset_take_iff {i a : Nat} (more : i < haystack.length) :
    m.Subset (haystack.take i) a ↔ m.Active haystack i a ∧ m.Counts ⟨false, none⟩ a := by
  have goesOn : (Place.within haystack i).atEnd ≠ some true := by
    simp only [Place.within, ne_eq, Option.some.injEq, decide_eq_true_iff]
    omega
  induction i generalizing a with
  | zero =>
    have same : m.Reaches (.within haystack 0) m.start a ↔ m.Reaches ⟨true, none⟩ m.start a :=
      reaches_congr rfl (by simp [goesOn])
    rw [active_zero, same]
    rfl
  | succ i ih =>
    have before : i < haystack.length := Nat.lt_of_succ_lt more
    have goesOn' : (Place.within haystack i).atEnd ≠ some true := by
      simp only [Place.within, ne_eq, Option.some.injEq, decide_eq_true_iff]
      omega
    have byte : haystack[i]? = some haystack[i] := List.getElem?_eq_getElem before
    have same (c : Nat) : m.Reaches (.within haystack (i + 1)) c a ↔ m.Reaches ⟨false, none⟩ c a :=
      reaches_congr rfl (by simp [goesOn])
    rw [List.take_succ_eq_append_getElem before, subset_concat, Follows, active_succ, byte]
    simp only [Option.some.injEq, exists_eq_left', same, ih before goesOn']
    refine and_congr_left fun _ => ?_
    constructor
    · rintro ⟨x, ⟨active, -⟩, rest⟩
      exact ⟨x, active, rest⟩
    · -- only nodes that count read a byte, so nothing is lost between the places
      rintro ⟨x, active, c, moves, reach⟩
      exact ⟨x, ⟨active, counts_of_moves moves⟩, c, moves, reach⟩

theorem accepts_iff_endsIn (wf : m.WellFormed) (nonempty : haystack ≠ []) :
    m.Accepts haystack ↔ m.EndsIn false (m.Subset haystack) := by
  have pos : 0 < haystack.length := List.length_pos_iff.2 nonempty
  obtain ⟨i, length⟩ : ∃ i, haystack.length = i + 1 := ⟨haystack.length - 1, by omega⟩
  have before : i < haystack.length := by omega
  have byte : haystack[i]? = some haystack[i] := List.getElem?_eq_getElem before
  have last : Place.within haystack (i + 1) = ⟨false, some true⟩ := by
    simp [Place.within, length]
  have parts : haystack = haystack.take i ++ [haystack[i]] := by
    rw [← List.take_succ_eq_append_getElem before, List.take_of_length_le (Nat.le_of_eq length)]
  have accepts : m.Accepts haystack ↔ m.Active haystack (i + 1) m.accept := by
    rw [← length]
    rfl
  have ends : m.EndsIn false (m.Subset haystack) ↔
      m.EndsIn false (m.Follows (m.Subset (haystack.take i)) haystack[i]) := by
    rw [← subset_concat, ← parts]
  rw [accepts, ends, active_succ, byte, last]
  simp only [Option.some.injEq, exists_eq_left', reaches_accept_iff wf]
  constructor
  · rintro ⟨x, active, c, moves, a, ⟨reach, counts⟩, far⟩
    have member := (subset_take_iff before).2 ⟨active, counts_of_moves moves⟩
    exact ⟨a, ⟨⟨x, member, c, moves, reach⟩, counts⟩, far⟩
  · rintro ⟨a, ⟨⟨x, member, c, moves, reach⟩, counts⟩, far⟩
    have active := ((subset_take_iff before).1 member).1
    exact ⟨x, active, c, moves, a, ⟨reach, counts⟩, far⟩

theorem accepts_nil_iff (wf : m.WellFormed) : m.Accepts [] ↔ m.EndsIn true m.Begins := by
  have place : Place.within [] 0 = ⟨true, some true⟩ := rfl
  have accepts : m.Accepts [] ↔ m.Active [] 0 m.accept := Iff.rfl
  rw [accepts, active_zero, place, reaches_accept_iff wf]
  rfl

theorem accepts_nil_of_endsIn (wf : m.WellFormed) (h : m.EndsIn false m.Begins) : m.Accepts [] := by
  obtain ⟨a, begins, far⟩ := h
  have far' : m.Reaches ⟨true, some true⟩ a m.accept := far.mono (fun _ => rfl) id
  exact (accepts_nil_iff wf).2 ⟨a, begins, far'⟩

end Automaton

end ByteRegex
