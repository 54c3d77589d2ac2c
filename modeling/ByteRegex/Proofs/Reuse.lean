import ByteRegex.Proofs.Simulation

/-! One cache for many searches. Its sets keep fitting the automaton that it was made for, whatever is
searched with it. A search with an automaton of no more nodes finds every node that it has unvisited, and
so does in one cache what it does in any other. -/

namespace ByteRegex

namespace NodeSet

variable {m v u : Automaton} {p : Place} {s t : NodeSet}

theorem Fits.add (h : s.Fits v) (a : Nat) (bound : a < s.marks.size) (n : Node Nat) :
    (if n.isMember p then (s.visit a bound).addMember a else s.visit a bound).Fits v := by
  have visited := h.visit a bound
  split
  case isTrue => exact ⟨visited.size_eq, visited.past⟩
  case isFalse => exact visited

/-- Two sets with marks for an automaton are alike when the same of its nodes are visited in both, and
the members are the same ones in the same order. -/
structure Alike (m : Automaton) (s t : NodeSet) : Prop where
  size_le : m.size ≤ s.marks.size
  size_le' : m.size ≤ t.marks.size
  visited_eq : ∀ a < m.size, s.isVisited a = t.isVisited a
  members_eq : s.members = t.members
  members_lt : ∀ a ∈ s.members, a < m.size

theorem Fits.not_isVisited_clear (h : s.Fits v) (a : Nat) : s.clear.isVisited a = false :=
  Bool.eq_false_iff.2 fun seen => ((h.clear (p := ⟨true, none⟩)).visited_iff a).1 seen

theorem Fits.clear_alike (hs : s.Fits v) (ht : t.Fits u) (small : m.size ≤ v.size)
    (small' : m.size ≤ u.size) : Alike m s.clear t.clear where
  size_le := le_of_le_of_eq small hs.cleared.size_eq.symm
  size_le' := le_of_le_of_eq small' ht.cleared.size_eq.symm
  visited_eq a _ := (hs.not_isVisited_clear a).trans (ht.not_isVisited_clear a).symm
  members_eq := rfl
  members_lt a member := absurd member (Array.not_mem_empty a)

theorem Alike.add (h : Alike m s t) {a : Nat} (isNode : a < m.size) (n : Node Nat)
    (bound : a < s.marks.size) (bound' : a < t.marks.size) :
    Alike m (if n.isMember p then (s.visit a bound).addMember a else s.visit a bound)
      (if n.isMember p then (t.visit a bound').addMember a else t.visit a bound') := by
  have visited : Alike m (s.visit a bound) (t.visit a bound') := by
    refine ⟨?_, ?_, ?_, h.members_eq, h.members_lt⟩
    · rw [size_marks_visit]
      exact h.size_le
    · rw [size_marks_visit]
      exact h.size_le'
    · intro b isNode'
      rw [isVisited_visit, isVisited_visit, h.visited_eq b isNode']
  split
  case isTrue =>
    refine ⟨visited.size_le, visited.size_le', visited.visited_eq, ?_, ?_⟩
    · simp only [addMember, visited.members_eq]
    · intro b member
      obtain old | rfl := Array.mem_push.1 member
      · exact visited.members_lt b old
      · exact isNode
  case isFalse => exact visited

end NodeSet

namespace Automaton

variable {m v : Automaton} {p : Place} {set set' : NodeSet} {stack stack' : Stack}

theorem explore_fits (widest : Nat) (pending : List Nat) (fits : set.Fits v) :
    (m.explore p set widest pending).1.Fits v := by
  fun_induction explore m p set widest pending with
  | case1 | case5 => exact fits
  | case2 _ _ _ _ _ _ ih => exact ih fits
  | case3 _ _ a _ bound => exact fits.visit a bound
  | case4 _ _ a _ bound _ n _ _ _ ih => exact ih (fits.add a bound n)

theorem explore_finished {widest : Nat} {pending : List Nat}
    (finished : (m.explore p set widest pending).2.2.2 = true) :
    (m.explore p set widest pending).2.1 = [] ∧ ∀ a ∈ pending, a < set.marks.size := by
  fun_induction explore m p set widest pending with
  | case1 => exact ⟨rfl, fun a none => absurd none List.not_mem_nil⟩
  | case2 _ _ a _ bound _ ih =>
    obtain ⟨left, bounds⟩ := ih finished
    exact ⟨left, List.forall_mem_cons.2 ⟨bound, bounds⟩⟩
  | case3 | case5 => cases finished
  | case4 set _ a rest bound _ n _ pending visited =>
    rename_i ih
    obtain ⟨left, bounds⟩ := ih finished
    refine ⟨left, List.forall_mem_cons.2 ⟨bound, fun b later => ?_⟩⟩
    have marked := bounds b (List.mem_append_right _ later)
    split at marked <;> simpa [visited] using marked

theorem explore_alike (wf : m.WellFormed) (alike : set.Alike m set') (widest : Nat)
    {pending : List Nat} (bounds : ∀ a ∈ pending, a < m.size) :
    (m.explore p set widest pending).1.Alike m (m.explore p set' widest pending).1 ∧
      (m.explore p set widest pending).2 = (m.explore p set' widest pending).2 := by
  fun_induction explore m p set widest pending generalizing set' with
  | case1 =>
    rw [explore]
    exact ⟨alike, rfl⟩
  | case2 set widest a rest bound seen ih =>
    obtain ⟨isNode, bounds'⟩ := List.forall_mem_cons.1 bounds
    have bound' := Nat.lt_of_lt_of_le isNode alike.size_le'
    rw [alike.visited_eq a isNode] at seen
    rw [explore, dif_pos bound', if_pos seen]
    exact ih alike bounds'
  | case3 set widest a rest bound new missing =>
    have isNode := bounds a (List.mem_cons_self ..)
    exact absurd isNode (Nat.not_lt.2 (Array.getElem?_eq_none_iff.1 missing))
  | case4 set widest a rest bound new n found pending visited =>
    rename_i ih
    obtain ⟨isNode, bounds'⟩ := List.forall_mem_cons.1 bounds
    -- both sets have a mark for the node, whatever else they have marks for
    have bound' := Nat.lt_of_lt_of_le isNode alike.size_le'
    rw [alike.visited_eq a isNode] at new
    rw [explore.eq_def m p set' widest (a :: rest)]
    simp only [dif_pos bound', if_neg new, found]
    refine ih (alike.add isNode n bound bound') fun b waits => ?_
    obtain target | later := List.mem_append.1 waits
    · exact wf.silent_lt ⟨n, found, target⟩
    · exact bounds' b later
  | case5 set widest a rest tooFar =>
    have isNode := bounds a (List.mem_cons_self ..)
    exact absurd (Nat.lt_of_lt_of_le isNode alike.size_le) tooFar

theorem closure_fits (held id : Nat) (fits : set.Fits v) :
    (m.closure p held set stack id).set.Fits v :=
  explore_fits _ _ fits

theorem closure_finished {held id : Nat}
    (finished : (m.closure p held set stack id).finished = true) :
    (m.closure p held set stack id).stack.left = [] ∧ ∀ a ∈ id :: stack.left, a < set.marks.size :=
  explore_finished finished

theorem advance_fits (held : Nat) (b : UInt8) (ids : List Nat) (fits : set.Fits v) :
    (m.advance (m.closure p held) b set stack ids).set.Fits v := by
  fun_induction advance m (m.closure p held) b set stack ids with
  | case1 | case2 => exact fits
  | case3 _ _ _ _ _ _ _ ih => exact ih fits
  | case4 _ _ _ _ _ _ _ _ _ _ ih => exact ih (closure_fits held _ fits)
  | case5 => exact closure_fits held _ fits

theorem advance_finished {held : Nat} {b : UInt8} {ids : List Nat} (empty : stack.left = [])
    (finished : (m.advance (m.closure p held) b set stack ids).finished = true) :
    (m.advance (m.closure p held) b set stack ids).stack.left = [] := by
  fun_induction advance m (m.closure p held) b set stack ids with
  | case1 => exact empty
  | case2 => cases finished
  | case3 _ _ _ _ _ _ _ ih => exact ih empty finished
  | case4 _ _ _ _ _ _ _ _ _ ended ih => exact ih (closure_finished ended).1 finished
  | case5 _ _ _ _ _ _ _ _ _ brokeOff => exact absurd finished brokeOff

end Automaton

structure Walk.Alike (m : Automaton) (w w' : Walk) : Prop where
  set : w.set.Alike m w'.set
  left_eq : w.stack.left = w'.stack.left
  finished_eq : w.finished = w'.finished

namespace Automaton

variable {m v : Automaton} {p : Place} {set set' : NodeSet} {stack stack' : Stack}

theorem closure_alike (wf : m.WellFormed) (held : Nat) (alike : set.Alike m set')
    (same : stack.left = stack'.left) {id : Nat} (bounds : ∀ a ∈ id :: stack.left, a < m.size) :
    (m.closure p held set stack id).Alike m (m.closure p held set' stack' id) := by
  obtain ⟨sets, rest⟩ := explore_alike wf (p := p) alike (id :: stack.left).length bounds
  simp only [closure, ← same]
  exact ⟨sets, congrArg (·.1) rest, congrArg (·.2.2) rest⟩

theorem advance_alike (wf : m.WellFormed) (held : Nat) (b : UInt8) (ids : List Nat)
    (alike : set.Alike m set') (empty : stack.left = []) (empty' : stack'.left = []) :
    (m.advance (m.closure p held) b set stack ids).Alike m
      (m.advance (m.closure p held) b set' stack' ids) := by
  induction ids generalizing set set' stack stack' with
  | nil => exact ⟨alike, empty.trans empty'.symm, rfl⟩
  | cons id ids ih =>
    simp only [advance]
    cases found : m.nodes[id]? with
    | none => exact ⟨alike, empty.trans empty'.symm, rfl⟩
    | some n =>
      simp only
      cases moves : n.move? b with
      | none => exact ih alike empty empty'
      | some target =>
        have isNode : target < m.size := wf.moves_lt ⟨n, found, moves⟩
        have bounds : ∀ a ∈ target :: stack.left, a < m.size := by simpa [empty] using isNode
        have walks := closure_alike (p := p) wf held alike (empty.trans empty'.symm) bounds
        simp only [← walks.finished_eq]
        split
        case isTrue ended =>
          have left := (closure_finished ended).1
          exact ih walks.set left (walks.left_eq.symm.trans left)
        case isFalse => exact walks

end Automaton

namespace Simulation

/-- A cache was made for an automaton when both its sets fit it. A walk may have broken off. -/
structure Cache.MadeFor (c : Cache) (v : Automaton) : Prop where
  active : c.active.Fits v
  previous : c.previous.Fits v

structure Cache.Alike (m : Automaton) (c d : Cache) : Prop where
  left_eq : c.stack.left = d.stack.left
  active : c.active.Alike m d.active
  previous_eq : c.previous.members = d.previous.members

variable {m v u : Automaton} {c d : Cache}

theorem Cache.Fits.madeFor (h : c.Fits v) : c.MadeFor v :=
  ⟨h.active, h.previous⟩

theorem run_madeFor (bytes : List UInt8) (made : c.MadeFor v) : (run m c bytes).2.MadeFor v := by
  induction bytes generalizing c with
  | nil => exact made
  | cons b bytes ih =>
    have walked : (m.advance (m.closure ⟨false, some bytes.isEmpty⟩ 1) b c.previous.clear c.stack
        c.active.members.toList).set.Fits v :=
      Automaton.advance_fits 1 b _ made.previous.cleared
    rw [run_cons]
    split
    case isTrue => exact made
    case isFalse =>
      simp only
      split
      case isTrue => exact ih ⟨walked, made.active⟩
      case isFalse => exact ⟨made.active, walked⟩

theorem search_madeFor (haystack : List UInt8) (made : c.MadeFor v) :
    (search m c haystack).2.MadeFor v := by
  have begins : (begun m c haystack).MadeFor v :=
    ⟨Automaton.closure_fits 1 m.start made.active.cleared, made.previous.cleared⟩
  rw [search_begun]
  split
  case isTrue => exact run_madeFor haystack begins
  case isFalse => exact begins

theorem run_finished {bytes : List UInt8} {answer : Bool} (empty : c.stack.left = [])
    (result : (run m c bytes).1 = some answer) : (run m c bytes).2.stack.left = [] := by
  induction bytes generalizing c with
  | nil => exact empty
  | cons b bytes ih =>
    rw [run_cons] at result ⊢
    split at result
    case isTrue idle =>
      rw [if_pos idle]
      exact empty
    case isFalse busy =>
      simp only at result ⊢
      rw [if_neg busy]
      split at result
      case isTrue ended =>
        rw [if_pos ended]
        exact ih (Automaton.advance_finished empty ended) result
      case isFalse => cases result

/-- A search that comes to an answer leaves no node behind, also none that was left before. -/
theorem search_finished {haystack : List UInt8} {answer : Bool}
    (result : (search m c haystack).1 = some answer) : (search m c haystack).2.stack.left = [] := by
  rw [search_begun] at result ⊢
  split at result
  case isTrue ended =>
    rw [if_pos ended]
    exact run_finished (Automaton.closure_finished ended).1 result
  case isFalse => cases result

theorem fits_of_search {answer : Bool} (made : c.MadeFor v)
    (result : (search m c haystack).1 = some answer) : (search m c haystack).2.Fits v := by
  have made' := search_madeFor (m := m) haystack made
  exact ⟨search_finished result, made'.active, made'.previous⟩

theorem verdict_alike (wf : m.WellFormed) (alike : c.Alike m d) : verdict m c = verdict m d := by
  have isNode : m.accept < m.size := (Array.getElem?_eq_some_iff.1 (wf.accept_iff.2 rfl)).1
  have verdict_eq (c : Cache) (bound : m.size ≤ c.active.marks.size) :
      verdict m c = some (c.active.isVisited m.accept) := by
    simp [verdict, NodeSet.isVisited, Nat.lt_of_lt_of_le isNode bound]
  rw [verdict_eq c alike.active.size_le, verdict_eq d alike.active.size_le',
    alike.active.visited_eq m.accept isNode]

theorem run_alike (wf : m.WellFormed) (small : m.size ≤ v.size) (small' : m.size ≤ u.size)
    (bytes : List UInt8) (made : c.MadeFor v) (made' : d.MadeFor u) (empty : c.stack.left = [])
    (alike : c.Alike m d) :
    (run m c bytes).1 = (run m d bytes).1 ∧ (run m c bytes).2.Alike m (run m d bytes).2 := by
  induction bytes generalizing c d with
  | nil => exact ⟨verdict_alike wf alike, alike⟩
  | cons b bytes ih =>
    have cleared := made.previous.clear_alike made'.previous small small'
    have walks := Automaton.advance_alike (p := ⟨false, some bytes.isEmpty⟩) wf 1 b
      c.active.members.toList cleared empty (alike.left_eq.symm.trans empty)
    simp only [run_cons, ← alike.active.members_eq, ← walks.finished_eq]
    split
    case isTrue => exact ⟨rfl, alike⟩
    case isFalse =>
      split
      case isTrue ended =>
        exact ih ⟨Automaton.advance_fits 1 b _ made.previous.cleared, made.active⟩
          ⟨Automaton.advance_fits 1 b _ made'.previous.cleared, made'.active⟩
          (Automaton.advance_finished empty ended)
          ⟨walks.left_eq, walks.set, alike.active.members_eq⟩
      case isFalse => exact ⟨rfl, walks.left_eq, alike.active, walks.set.members_eq⟩

/-- A search does the same in any two caches that have room for it. -/
theorem search_alike (wf : m.WellFormed) (small : m.size ≤ v.size) (small' : m.size ≤ u.size)
    (haystack : List UInt8) (fits : c.Fits v) (fits' : d.Fits u) :
    (search m c haystack).1 = (search m d haystack).1 ∧
      (search m c haystack).2.Alike m (search m d haystack).2 := by
  have cleared := fits.active.clear_alike fits'.active small small'
  have bounds : ∀ a ∈ m.start :: c.stack.left, a < m.size := by simpa [fits.left_eq] using wf.start_lt
  have walks := Automaton.closure_alike (p := ⟨true, some haystack.isEmpty⟩) wf 1 cleared
    (fits.left_eq.trans fits'.left_eq.symm) bounds
  have begins : (begun m c haystack).Alike m (begun m d haystack) := ⟨walks.left_eq, walks.set, rfl⟩
  rw [search_begun, search_begun, ← walks.finished_eq]
  split
  case isTrue ended =>
    exact run_alike wf small small' haystack
      ⟨Automaton.closure_fits 1 m.start fits.active.cleared, fits.previous.cleared⟩
      ⟨Automaton.closure_fits 1 m.start fits'.active.cleared, fits'.previous.cleared⟩
      (Automaton.closure_finished ended).1 begins
  case isFalse => exact ⟨rfl, begins⟩

theorem search_fits_of_le (wf : m.WellFormed) (small : m.size ≤ v.size) (haystack : List UInt8)
    (fits : c.Fits v) : (search m c haystack).2.Fits v := by
  have same := (search_alike wf small (Nat.le_refl _) haystack fits fits_ofAutomaton).1
  exact fits_of_search fits.madeFor (same.trans (search_eq wf fits_ofAutomaton haystack))

inductive Call
  | reset (m : Automaton)
  | search (m : Automaton) (haystack : List UInt8)

/-- A cache and the automaton that it was made for last. -/
structure Session where
  cache : Cache
  owner : Automaton

namespace Session

def new (v : Automaton) : Session :=
  ⟨.ofAutomaton v, v⟩

def perform (s : Session) : Call → Session
  | .reset m => ⟨s.cache.reset m, m⟩
  | .search m haystack => ⟨(Simulation.search m s.cache haystack).2, s.owner⟩

def after (s : Session) (calls : List Call) : Session :=
  calls.foldl perform s

/-- Whether every search is with an automaton of no more nodes than the cache was made for. -/
def Suits : Session → List Call → Prop
  | _, [] => True
  | s, .reset m :: calls => (s.perform (.reset m)).Suits calls
  | s, .search m haystack :: calls =>
    m.Built ∧ m.size ≤ s.owner.size ∧ (s.perform (.search m haystack)).Suits calls

variable {s : Session} {before calls : List Call}

theorem suits_append : s.Suits (before ++ calls) ↔ s.Suits before ∧ (s.after before).Suits calls := by
  induction before generalizing s with
  | nil => exact iff_of_eq (true_and _).symm
  | cons call before ih =>
    cases call with
    | reset m => exact ih
    | search m haystack =>
      simp only [List.cons_append, Suits, ih, and_assoc]
      rfl

theorem fits_after (suits : s.Suits calls) (fits : s.cache.Fits s.owner) :
    (s.after calls).cache.Fits (s.after calls).owner := by
  induction calls generalizing s with
  | nil => exact fits
  | cons call calls ih =>
    cases call with
    | reset m => exact ih suits ⟨rfl, NodeSet.fits_ofSize, NodeSet.fits_ofSize⟩
    | search m haystack =>
      obtain ⟨built, small, later⟩ := suits
      exact ih later (search_fits_of_le built.wellFormed small haystack fits)

/-- As long as no search needs more room than the cache was made with, every search answers and leaves
the members that it would have left in a cache of its own, in the same order, and no call leaves a node
on the stack. -/
theorem reuse_unnoticed {v : Automaton} (suits : (new v).Suits calls) :
    (∀ before, before <+: calls → ((new v).after before).cache.stack.left = []) ∧
    ∀ before m haystack, before ++ [.search m haystack] <+: calls →
      ∃ answer c d, Simulation.search m ((new v).after before).cache haystack = (some answer, c) ∧
        Simulation.search m (.ofAutomaton m) haystack = (some answer, d) ∧
        c.active.members = d.active.members ∧ c.previous.members = d.previous.members := by
  have fits (before : List Call) (within : before <+: calls) :
      ((new v).after before).cache.Fits ((new v).after before).owner := by
    obtain ⟨later, rfl⟩ := within
    exact fits_after (suits_append.1 suits).1 fits_ofAutomaton
  refine ⟨fun before within => (fits before within).left_eq, ?_⟩
  rintro before m haystack ⟨later, rfl⟩
  rw [List.append_assoc] at suits
  obtain ⟨-, built, small, -⟩ := suits_append.1 suits
  have here := fits before ⟨.search m haystack :: later, by simp⟩
  obtain ⟨same, alike⟩ := search_alike built.wellFormed small (Nat.le_refl _) haystack here
    fits_ofAutomaton
  have fresh := search_eq built.wellFormed (fits_ofAutomaton (m := m)) haystack
  exact ⟨m.accepts haystack, _, _, Prod.ext (same.trans fresh) rfl, Prod.ext fresh rfl,
    alike.active.members_eq, alike.previous_eq⟩

theorem reuse_unnoticed_of_letters : ∃ v m : Automaton, m.size < v.size ∧
    (new v).Suits [.search v [0x61, 0x62], .search m [0x61]] ∧
    ((new v).after [.search v [0x61, 0x62]]).cache.stack.left = [] ∧
    ∃ answer c d, Simulation.search m ((new v).after [.search v [0x61, 0x62]]).cache [0x61] =
        (some answer, c) ∧
      Simulation.search m (.ofAutomaton m) [0x61] = (some answer, d) ∧
      c.active.members = d.active.members ∧ c.previous.members = d.previous.members := by
  have compiles : (Construction.ofPattern {} "ab").toOption.any (fun v => decide
      ((Construction.ofPattern {} "a").toOption.any (fun m => decide (m.size < v.size)) = true)) =
        true := by
    decide +kernel
  obtain ⟨v, built, check⟩ := Automaton.exists_built compiles
  obtain ⟨m, built', smaller⟩ := Automaton.exists_built check
  have suits : (new v).Suits [.search v [0x61, 0x62], .search m [0x61]] :=
    ⟨built, Nat.le_refl _, built', Nat.le_of_lt smaller, trivial⟩
  obtain ⟨empty, same⟩ := reuse_unnoticed suits
  exact ⟨v, m, smaller, suits, empty _ (List.prefix_append _ _),
    same _ m [0x61] (List.prefix_refl _)⟩

end Session

end Simulation

end ByteRegex
