import ByteRegex.Proofs.Reuse

/-! What a search that broke off does to the ones after it. The nodes that it left on the stack are still
there, and the next search begins at them as well as at the start node. This goes unnoticed exactly when
they are nodes of its automaton from which no more is accepted than from the start. -/

namespace ByteRegex

open Relation

namespace Automaton

variable {m : Automaton} {p : Place} {set : NodeSet} {stack : Stack} {a : Nat}

def AcceptsFrom (m : Automaton) (a : Nat) (haystack : List UInt8) : Prop :=
  ReflTransGen (m.Step haystack) (a, 0) (m.accept, haystack.length)

/-- Whether a node is the second target of a split. -/
def IsBranch (m : Automaton) (a : Nat) : Prop :=
  ∃ id first : Nat, m.nodes[id]? = some (.split first a)

theorem explore_left {widest : Nat} {pending : List Nat}
    (left : a ∈ (m.explore p set widest pending).2.1) : a ∈ pending.tail ∨ m.IsBranch a := by
  fun_induction explore m p set widest pending with
  | case1 => cases left
  | case2 _ _ _ _ _ _ ih => exact (ih left).imp_left List.mem_of_mem_tail
  | case3 | case5 => exact .inl left
  | case4 set widest id rest bound new n found pending visited =>
    rename_i ih
    refine (ih left).elim (fun waits => ?_) .inr
    cases n with
    | consume | accept => exact .inl (List.mem_of_mem_tail waits)
    -- the first target is taken next, so the second is the one that waits
    | split x y =>
      obtain _ | ⟨_, later⟩ := waits
      · exact .inr ⟨id, x, found⟩
      · exact .inl later
    | require anchor next =>
      cases anchor <;> simp only [pending, Node.silentTargets] at waits <;> split at waits
      · exact .inl waits
      · exact .inl (List.mem_of_mem_tail waits)
      · exact .inl waits
      · exact .inl (List.mem_of_mem_tail waits)

theorem closure_left {held id : Nat} (left : a ∈ (m.closure p held set stack id).stack.left) :
    a ∈ stack.left ∨ m.IsBranch a :=
  explore_left left

theorem advance_left {held : Nat} {b : UInt8} {ids : List Nat}
    (left : a ∈ (m.advance (m.closure p held) b set stack ids).stack.left) :
    a ∈ stack.left ∨ m.IsBranch a := by
  fun_induction advance m (m.closure p held) b set stack ids with
  | case1 | case2 => exact .inl left
  | case3 _ _ _ _ _ _ _ ih => exact ih left
  | case4 _ _ _ _ _ _ _ _ _ _ ih => exact (ih left).elim closure_left .inr
  | case5 => exact closure_left left

end Automaton

namespace Simulation

variable {m v : Automaton} {c : Cache} {haystack : List UInt8} {a : Nat}

theorem run_left {bytes : List UInt8} (left : a ∈ (run m c bytes).2.stack.left) :
    a ∈ c.stack.left ∨ m.IsBranch a := by
  induction bytes generalizing c with
  | nil => exact .inl left
  | cons b bytes ih =>
    rw [run_cons] at left
    split at left
    case isTrue => exact .inl left
    case isFalse =>
      simp only at left
      split at left
      case isTrue => exact (ih left).elim Automaton.advance_left .inr
      case isFalse => exact Automaton.advance_left left

/-- A node is left behind by a search that breaks off. It was left before, or it is a branch that the
search did not come to follow. -/
theorem search_left (left : a ∈ (search m c haystack).2.stack.left) :
    (search m c haystack).1 = none ∧ (a ∈ c.stack.left ∨ m.IsBranch a) := by
  constructor
  · cases result : (search m c haystack).1 with
    | none => rfl
    | some answer =>
      rw [search_finished result] at left
      cases left
  · have begins (left : a ∈ (begun m c haystack).stack.left) : a ∈ c.stack.left ∨ m.IsBranch a :=
      Automaton.closure_left left
    rw [search_begun] at left
    split at left
    case isTrue => exact (run_left left).elim begins .inr
    case isFalse => exact begins left

theorem left_lt_of_search {answer : Bool} (made : c.MadeFor v)
    (result : (search m c haystack).1 = some answer) : ∀ a ∈ c.stack.left, a < v.size := by
  rw [search_begun] at result
  split at result
  case isTrue ended =>
    intro a left
    have marked := (Automaton.closure_finished ended).2 a (List.mem_cons_of_mem _ left)
    exact Nat.lt_of_lt_of_eq marked made.active.cleared.size_eq
  case isFalse => cases result

/-- A search answers for the nodes that are left behind as it does for the start node. -/
theorem search_of_left (wf : v.WellFormed) (made : c.MadeFor v) (bounds : ∀ a ∈ c.stack.left, a < v.size)
    (haystack : List UInt8) : ∃ answer, (search v c haystack).1 = some answer ∧
      (answer = true ↔ ∃ a ∈ v.start :: c.stack.left, v.AcceptsFrom a haystack) := by
  obtain ⟨here, result⟩ := begun_spec wf made.active made.previous bounds haystack
  obtain ⟨answer, ran, right⟩ := run_spec wf (Nat.zero_le _) here
  rw [List.drop_zero] at ran
  exact ⟨answer, by rw [result, ran], right⟩

theorem answers_iff_harmless (wf : v.WellFormed) (made : c.MadeFor v) :
    (∀ haystack, (search v c haystack).1 = some (v.accepts haystack)) ↔
      ∀ a ∈ c.stack.left, a < v.size ∧ ∀ haystack, v.AcceptsFrom a haystack → v.Accepts haystack := by
  constructor
  · intro right
    have bounds := left_lt_of_search made (right [])
    refine fun a left => ⟨bounds a left, fun haystack accepting => ?_⟩
    obtain ⟨answer, result, found⟩ := search_of_left wf made bounds haystack
    have yes : answer = true := found.2 ⟨a, List.mem_cons_of_mem _ left, accepting⟩
    rw [right haystack, yes, Option.some.injEq] at result
    exact (Automaton.accepts_iff wf haystack).1 result
  · intro harmless haystack
    have bounds : ∀ a ∈ c.stack.left, a < v.size := fun a left => (harmless a left).1
    obtain ⟨answer, result, found⟩ := search_of_left wf made bounds haystack
    rw [result, Option.some.injEq, Bool.eq_iff_iff, found, Automaton.accepts_iff wf]
    constructor
    · rintro ⟨a, source, accepting⟩
      obtain _ | ⟨_, left⟩ := source
      · exact accepting
      · exact (harmless a left).2 haystack accepting
    · exact fun accepting => ⟨v.start, List.mem_cons_self .., accepting⟩

namespace Session

/-- Whether every search from now on with the owner of the cache answers as in a new cache. -/
def Usable (s : Session) : Prop :=
  ∀ (later : List (List UInt8)) (haystack : List UInt8),
    (Simulation.search s.owner (s.after (later.map (.search s.owner))).cache haystack).1 =
      (Simulation.search s.owner (.ofAutomaton s.owner) haystack).1

variable {s : Session}

theorem madeFor_after (calls : List Call) (made : s.cache.MadeFor s.owner) :
    (s.after calls).cache.MadeFor (s.after calls).owner := by
  induction calls generalizing s with
  | nil => exact made
  | cons call calls ih =>
    cases call with
    | reset m => exact ih ⟨NodeSet.fits_ofSize, NodeSet.fits_ofSize⟩
    | search m haystack => exact ih (search_madeFor haystack made)

theorem owner_searches (m : Automaton) (later : List (List UInt8)) :
    (s.after (later.map (.search m))).owner = s.owner := by
  induction later generalizing s with
  | nil => rfl
  | cons haystack later ih => exact ih (s := s.perform (.search m haystack))

theorem suits_searches (built : s.owner.Built) (later : List (List UInt8)) :
    s.Suits (later.map (.search s.owner)) := by
  induction later generalizing s with
  | nil => trivial
  | cons haystack later ih =>
    exact ⟨built, Nat.le_refl _, ih (s := s.perform (.search s.owner haystack)) built⟩

theorem usable_iff (built : s.owner.Built) (made : s.cache.MadeFor s.owner) : s.Usable ↔
    ∀ haystack, (Simulation.search s.owner s.cache haystack).1 = some (s.owner.accepts haystack) := by
  have fresh := search_eq built.wellFormed (fits_ofAutomaton (m := s.owner))
  constructor
  · intro usable haystack
    exact (usable [] haystack).trans (fresh haystack)
  · intro right later haystack
    rw [fresh]
    cases later with
    | nil => exact right haystack
    -- the first search that answers leaves the cache as good as new
    | cons first later =>
      have fits := fits_of_search made (right first)
      have suits := suits_searches (s := s.perform (.search s.owner first)) built later
      have fits' := fits_after suits fits
      rw [owner_searches] at fits'
      exact search_eq built.wellFormed fits' haystack

/-- A search that breaks off leaves behind branches of its automaton. The cache stays usable exactly when
these are nodes of the owner from which no more is accepted than from its start. -/
theorem usable_iff_harmless {u : Automaton} {calls : List Call} (reached : (new u).after calls = s)
    (built : s.owner.Built) (w : Automaton) (haystack : List UInt8) :
    (∀ a ∈ (s.perform (.search w haystack)).cache.stack.left,
      (Simulation.search w s.cache haystack).1 = none ∧ (a ∈ s.cache.stack.left ∨ w.IsBranch a)) ∧
    ((s.perform (.search w haystack)).Usable ↔
      ∀ a ∈ (s.perform (.search w haystack)).cache.stack.left, a < s.owner.size ∧
        ∀ other, s.owner.AcceptsFrom a other → s.owner.Accepts other) := by
  have made : s.cache.MadeFor s.owner := by
    rw [← reached]
    exact madeFor_after calls fits_ofAutomaton.madeFor
  have made' := search_madeFor (m := w) haystack made
  refine ⟨fun a left => search_left left, ?_⟩
  exact (usable_iff (s := s.perform (.search w haystack)) built made').trans
    (answers_iff_harmless built.wellFormed made')

theorem usable_iff_harmless_of_letters : ∃ v w : Automaton, v.Built ∧ w.Built ∧ v.size < w.size ∧
    (Simulation.search w (.ofAutomaton v) [0x61, 0x62]).1 = none ∧
    ((new v).perform (.search w [0x61, 0x62])).Usable := by
  have compiles : (Construction.ofPattern {} "a").toOption.any (fun v => decide
      ((Construction.ofPattern {} "ab").toOption.any (fun w => decide (v.size < w.size ∧
        (Simulation.search w (.ofAutomaton v) [0x61, 0x62]).1 = none ∧
        (Simulation.search w (.ofAutomaton v) [0x61, 0x62]).2.stack.left = [])) = true)) = true := by
    decide +kernel
  obtain ⟨v, built, check⟩ := Automaton.exists_built compiles
  obtain ⟨w, built', larger, failed, nothing⟩ := Automaton.exists_built check
  have reached : (new v).after [] = new v := rfl
  obtain ⟨-, usable⟩ := usable_iff_harmless reached built w [0x61, 0x62]
  refine ⟨v, w, built, built', larger, failed, usable.2 fun a left => ?_⟩
  rw [show ((new v).perform (.search w [0x61, 0x62])).cache.stack.left = [] from nothing] at left
  cases left

/-- A search with a larger automaton that breaks off, and a search after it that answers wrongly. -/
theorem unusable_after_anchor : ∃ v w : Automaton, v.Built ∧ w.Built ∧ v.size < w.size ∧
    (Simulation.search w (.ofAutomaton v) []).1 = none ∧
    (Simulation.search v (Simulation.search w (.ofAutomaton v) []).2 [0x62]).1 = some true ∧
    (Simulation.search v (.ofAutomaton v) [0x62]).1 = some false := by
  have compiles : (Construction.ofPattern {} "ab").toOption.any (fun v => decide
      ((Construction.ofPattern {} "(^|a)b").toOption.any (fun w => decide (v.size < w.size ∧
        (Simulation.search w (.ofAutomaton v) []).1 = none ∧
        (Simulation.search v (Simulation.search w (.ofAutomaton v) []).2 [0x62]).1 = some true ∧
        (Simulation.search v (.ofAutomaton v) [0x62]).1 = some false)) = true)) = true := by
    decide +kernel
  obtain ⟨v, built, check⟩ := Automaton.exists_built compiles
  obtain ⟨w, built', runs⟩ := Automaton.exists_built check
  exact ⟨v, w, built, built', runs⟩

end Session

end Simulation

end ByteRegex
