import ByteRegex.Proofs.Refusals
import Mathlib.Data.Finset.Powerset
import Mathlib.Data.Set.Card
import Mathlib.Order.Interval.Finset.Nat

/-! What a table holds after searches that all come to an answer. Its rows belong to the sets to which the
beginnings of the haystacks lead, each of them once, and to the empty set. So the number of rows does not
depend on the order of the searches. A table that may have a row for every set of nodes never fails. -/

namespace ByteRegex

open LazyTable

/-- The sets of nodes, but for the empty one, to which the beginnings of haystacks lead. -/
def Automaton.reached (m : Automaton) (haystacks : List (List UInt8)) : Set (Set Nat) :=
  {nodes | nodes.Nonempty ∧ ∃ haystack ∈ haystacks, ∃ part, part <+: haystack ∧
    nodes = {a | m.Subset part a}}

namespace LazyTable

variable {t : LazyTable} {d : LazyMatcher}

def contents (t : LazyTable) : Set (Set Nat) :=
  {nodes | nodes.Nonempty ∧ ∃ set, t.Has set ∧ nodes = {a | a ∈ set}}

theorem exists_set {k : Nat} (bound : k < t.size) : ∃ set, t.sets[k]? = some set :=
  ⟨t.sets[k], Array.getElem?_eq_getElem bound⟩

def nodesAt (t : LazyTable) (k : Nat) : Set Nat :=
  {a | ∃ set, t.sets[k]? = some set ∧ a ∈ set}

theorem nodesAt_eq {k : Nat} {set : List Nat} (found : t.sets[k]? = some set) :
    t.nodesAt k = {a | a ∈ set} := by
  ext a
  simp [nodesAt, found]

theorem Sound.eq_of_same_nodes (h : t.Sound d) {j k : Nat} {set set' : List Nat}
    (found : t.sets[j]? = some set) (found' : t.sets[k]? = some set') (same : ∀ a, a ∈ set ↔ a ∈ set') :
    j = k := by
  have equal : set = set' := (h.ascending found).eq_of_mem_iff (h.ascending found') same
  rw [← equal] at found'
  exact h.eq_of_set found found'

theorem Sound.nodesAt_injOn (h : t.Sound d) : Set.InjOn t.nodesAt (Finset.Ico 1 t.size : Finset Nat) := by
  intro j inside k inside' same
  have bounds := Finset.mem_Ico.1 (Finset.mem_coe.1 inside)
  have bounds' := Finset.mem_Ico.1 (Finset.mem_coe.1 inside')
  obtain ⟨set, found⟩ := exists_set bounds.2
  obtain ⟨set', found'⟩ := exists_set bounds'.2
  rw [nodesAt_eq found, nodesAt_eq found'] at same
  exact h.eq_of_same_nodes found found' fun a => Set.ext_iff.1 same a

theorem Sound.contents_eq_image (h : t.Sound d) :
    t.contents = t.nodesAt '' (Finset.Ico 1 t.size : Finset Nat) := by
  ext nodes
  simp only [Set.mem_image, Finset.mem_coe, Finset.mem_Ico]
  constructor
  · rintro ⟨⟨a, inside⟩, set, ⟨k, found⟩, rfl⟩
    have later : k ≠ 0 := by
      rintro rfl
      cases h.first.symm.trans found
      cases inside
    exact ⟨k, ⟨Nat.pos_of_ne_zero later, set_lt found⟩, nodesAt_eq found⟩
  · rintro ⟨k, ⟨later, bound⟩, rfl⟩
    obtain ⟨set, found⟩ := exists_set bound
    rw [nodesAt_eq found]
    refine ⟨?_, set, ⟨k, found⟩, rfl⟩
    have some : set ≠ [] := by
      rintro rfl
      have first : k = 0 := h.eq_of_set found h.first
      omega
    exact List.exists_mem_of_ne_nil _ some

/-- Every row but the first belongs to a set of its own, which is not empty. -/
theorem Sound.size_eq (h : t.Sound d) : t.size = t.contents.ncard + 1 := by
  have pos := h.size_pos
  rw [h.contents_eq_image, h.nodesAt_injOn.ncard_image, Set.ncard_coe_finset, Nat.card_Ico]
  omega

theorem Sound.size_lt_of_missing (h : t.Sound d) {nodes : Nat → Prop}
    (inside : ∀ a, nodes a → a < d.automaton.size) (missing : ¬t.HasRowOf nodes) :
    t.size < 2 ^ d.automaton.size := by
  classical
  let all := (Finset.range d.automaton.size).powerset
  let rowSet (k : Nat) : Finset Nat := {a ∈ Finset.range d.automaton.size | a ∈ t.nodesAt k}
  have bounds {k : Nat} {set : List Nat} (found : t.sets[k]? = some set) (a : Nat) :
      a ∈ rowSet k ↔ a ∈ set := by
    simp only [rowSet, nodesAt_eq found, Finset.mem_filter, Finset.mem_range, Set.mem_ofPred_eq]
    refine and_iff_right_of_imp fun member => ?_
    obtain ⟨n, isNode, -⟩ := h.counts found a member
    exact (Array.getElem?_eq_some_iff.1 isNode).1
  have injective : Set.InjOn rowSet (Finset.range t.size : Finset Nat) := by
    intro j inside k inside' same
    obtain ⟨set, found⟩ := exists_set (Finset.mem_range.1 (Finset.mem_coe.1 inside))
    obtain ⟨set', found'⟩ := exists_set (Finset.mem_range.1 (Finset.mem_coe.1 inside'))
    refine h.eq_of_same_nodes found found' fun a => ?_
    rw [← bounds found, same, bounds found']
  have lacks : {a ∈ Finset.range d.automaton.size | nodes a} ∉ (Finset.range t.size).image rowSet := by
    intro member
    obtain ⟨k, row, same⟩ := Finset.mem_image.1 member
    obtain ⟨set, found⟩ := exists_set (Finset.mem_range.1 row)
    refine missing ⟨set, ⟨k, found⟩, fun a => ?_⟩
    rw [← bounds found, same, Finset.mem_filter, Finset.mem_range]
    exact and_iff_right_of_imp (inside a)
  -- rows are different sets of nodes, and at least one set is not among them
  have proper : (Finset.range t.size).image rowSet ⊂ all := by
    refine (Finset.ssubset_iff_of_subset ?_).2 ⟨_, ?_, lacks⟩
    · exact Finset.image_subset_iff.2 fun k _ => Finset.mem_powerset.2 (Finset.filter_subset _ _)
    · exact Finset.mem_powerset.2 (Finset.filter_subset _ _)
  have less := Finset.card_lt_card proper
  rwa [Finset.card_image_of_injOn injective, Finset.card_range, Finset.card_powerset,
    Finset.card_range] at less

end LazyTable

namespace LazyMatcher

variable {d : LazyMatcher} {t : LazyTable} {haystack : List UInt8} {before haystacks : List (List UInt8)}

/-- Whether a table may have a row for every set of nodes. -/
structure Roomy (d : LazyMatcher) : Prop where
  numbers : 2 ^ d.automaton.size ≤ RowId.greatest + 1
  limit : ∀ limit, d.rowLimit = some limit → 2 ^ d.automaton.size ≤ limit

theorem Roomy.not_full (room : d.Roomy) (sound : t.Sound d) {nodes : Nat → Prop}
    (inside : ∀ a, nodes a → a < d.automaton.size) (missing : ¬t.HasRowOf nodes) : ¬d.Full t := by
  have fewer := sound.size_lt_of_missing inside missing
  rintro (⟨limit, limited, reached⟩ | many)
  · have least := room.limit limit limited
    omega
  · have least := room.numbers
    omega

theorem lt_of_counts {m : Automaton} {p : Place} {a : Nat} (counts : m.Counts p a) : a < m.size := by
  obtain ⟨n, isNode, -⟩ := counts
  exact (Array.getElem?_eq_some_iff.1 isNode).1

/-- A table that may have a row for every set of nodes gives an answer to every search. -/
theorem search_isOk (wf : d.automaton.WellFormed) (room : d.Roomy) (sound : t.Sound d)
    (haystack : List UInt8) : (d.search t haystack).1.isOk = true := by
  rcases outcome : d.search t haystack with ⟨e | answer, t'⟩
  case error =>
    exfalso
    -- a call that fails lacks a row, but a roomy table is never full then
    cases interrupted_of_search wf sound outcome with
    | atStart failed =>
      have fails := start_fails wf sound
      rw [failed] at fails
      obtain ⟨⟨-, missing⟩, full⟩ := fails.error_iff.1 ⟨e, rfl⟩
      exact room.not_full sound (fun a begins => lt_of_counts begins.2) missing full
    | @atByte t₀ t₁ _ first id accepted part rest b _ begun read failed =>
      have grows := start_spec wf sound
      rw [begun] at grows
      have steps := steps_tracks wf grows.sound (grows.sound.tracks_start (grows.ok rfl)) part
      rw [read] at steps
      obtain ⟨set, names, -⟩ := steps.ok rfl
      have fails := next_fails wf steps.sound names b
      rw [failed] at fails
      obtain ⟨⟨-, missing⟩, full⟩ := fails.error_iff.1 ⟨e, rfl⟩
      exact room.not_full steps.sound (fun a follows => lt_of_counts follows.2) missing full
  case ok => rfl

def tableAfter (d : LazyMatcher) (t : LazyTable) (haystacks : List (List UInt8)) : LazyTable :=
  haystacks.foldl (fun t haystack => (d.search t haystack).2) t

def AllAnswered (d : LazyMatcher) : LazyTable → List (List UInt8) → Prop
  | _, [] => True
  | t, haystack :: haystacks =>
    (d.search t haystack).1.isOk = true ∧ AllAnswered d (d.search t haystack).2 haystacks

theorem allAnswered_of_roomy (wf : d.automaton.WellFormed) (room : d.Roomy) (sound : t.Sound d)
    (haystacks : List (List UInt8)) : d.AllAnswered t haystacks := by
  induction haystacks generalizing t with
  | nil => trivial
  | cons haystack haystacks ih =>
    exact ⟨search_isOk wf room sound haystack, ih (search_spec wf sound haystack).sound⟩

/-- A table holds what searches for the haystacks need, and no row beyond that. -/
structure Holds (d : LazyMatcher) (haystacks : List (List UInt8)) (t : LazyTable) : Prop where
  sound : t.Sound d
  traced : ∀ haystack ∈ haystacks, t.Traced haystack
  has : ∀ set, t.Has set → set = [] ∨ ∃ haystack ∈ haystacks, ∃ part, part <+: haystack ∧
    ∀ a, a ∈ set ↔ d.automaton.Subset part a

theorem holds_newTable (d : LazyMatcher) : d.Holds [] d.newTable := by
  refine ⟨sound_ofAutomaton d, fun _ member => absurd member List.not_mem_nil, ?_⟩
  rintro set ⟨k, found⟩
  have only : k = 0 := Nat.lt_one_iff.1 (set_lt found)
  subst only
  cases (sound_ofAutomaton d).first.symm.trans found
  exact .inl rfl

theorem Holds.search (wf : d.automaton.WellFormed) (h : d.Holds before t)
    (answered : (d.search t haystack).1.isOk = true) :
    d.Holds (before ++ [haystack]) (d.search t haystack).2 := by
  obtain ⟨answer, found⟩ := exists_of_isOk answered
  have grows := search_spec wf h.sound haystack
  have result : d.search t haystack = (.ok answer, (d.search t haystack).2) := Prod.ext found rfl
  obtain ⟨traced, adds⟩ := search_content wf h.sound result
  refine ⟨grows.sound, ?_, fun set has => ?_⟩
  · simp only [List.forall_mem_append, List.forall_mem_singleton]
    exact ⟨fun other member => (h.traced other member).extend grows.extension, traced⟩
  · obtain old | new := adds set has
    · obtain empty | ⟨other, member, rest⟩ := h.has set old
      · exact .inl empty
      · exact .inr ⟨other, List.mem_append_left _ member, rest⟩
    · exact .inr ⟨haystack, List.mem_append_right _ (List.mem_singleton_self _), new⟩

theorem Holds.searches (wf : d.automaton.WellFormed) (h : d.Holds before t)
    (answered : d.AllAnswered t haystacks) :
    d.Holds (before ++ haystacks) (d.tableAfter t haystacks) := by
  induction haystacks generalizing before t with
  | nil =>
    rw [List.append_nil]
    exact h
  | cons haystack haystacks ih =>
    have rest := ih (h.search wf answered.1) answered.2
    rwa [List.append_assoc] at rest

theorem Holds.contents_eq (h : d.Holds haystacks t) : t.contents = d.automaton.reached haystacks := by
  ext nodes
  constructor
  · rintro ⟨⟨a, inside⟩, set, has, rfl⟩
    refine ⟨⟨a, inside⟩, ?_⟩
    obtain rfl | ⟨haystack, member, part, beginning, same⟩ := h.has set has
    · cases inside
    · exact ⟨haystack, member, part, beginning, Set.ext same⟩
  · rintro ⟨⟨a, inside⟩, haystack, member, part, beginning, rfl⟩
    obtain ⟨set, has, same⟩ := h.sound.has_of_traced (h.traced haystack member) beginning ⟨a, inside⟩
    exact ⟨⟨a, inside⟩, set, has, (Set.ext same).symm⟩

theorem holds_tableAfter (wf : d.automaton.WellFormed) (answered : d.AllAnswered d.newTable haystacks) :
    d.Holds haystacks (d.tableAfter d.newTable haystacks) :=
  (holds_newTable d).searches wf answered

/-- After searches that all come to an answer, the rows belong to the sets to which the beginnings of the
haystacks lead and to the empty set, each of them once. Their number is the same for the same haystacks
in any order, each searched for once or more. A search for one of the haystacks or for its beginning comes
to an answer and leaves the table as it is. -/
theorem table_content (built : d.automaton.Built) (answered : d.AllAnswered d.newTable haystacks) :
    (d.tableAfter d.newTable haystacks).contents = d.automaton.reached haystacks ∧
    (d.tableAfter d.newTable haystacks).size = (d.automaton.reached haystacks).ncard + 1 ∧
    (∀ others, d.AllAnswered d.newTable others →
      (∀ haystack, haystack ∈ others ↔ haystack ∈ haystacks) →
      (d.tableAfter d.newTable others).size = (d.tableAfter d.newTable haystacks).size) ∧
    ∀ haystack ∈ haystacks, ∀ part, part <+: haystack → ∃ answer,
      d.search (d.tableAfter d.newTable haystacks) part =
        (.ok answer, d.tableAfter d.newTable haystacks) := by
  have holds := holds_tableAfter built.wellFormed answered
  have size := holds.sound.size_eq
  rw [holds.contents_eq] at size
  refine ⟨holds.contents_eq, size, fun others answered' same => ?_, ?_⟩
  · have holds' := holds_tableAfter built.wellFormed answered'
    have reached : d.automaton.reached others = d.automaton.reached haystacks := by
      simp only [Automaton.reached, same]
    rw [holds'.sound.size_eq, holds'.contents_eq, size, reached]
  · intro haystack member part beginning
    exact search_of_traced ((holds.traced haystack member).of_beginning beginning)

theorem table_content_of_letters : ∃ d : LazyMatcher, d.automaton.Built ∧ d.rowLimit = some 8 ∧
    (d.tableAfter d.newTable [[0x61, 0x62], [0x62], [0x61]]).contents =
      d.automaton.reached [[0x61, 0x62], [0x62], [0x61]] ∧
    (d.tableAfter d.newTable [[0x61, 0x62], [0x62], [0x61]]).size =
      (d.automaton.reached [[0x61, 0x62], [0x62], [0x61]]).ncard + 1 ∧
    (∀ others, d.AllAnswered d.newTable others →
      (∀ haystack, haystack ∈ others ↔ haystack ∈ [[0x61, 0x62], [0x62], [0x61]]) →
      (d.tableAfter d.newTable others).size =
        (d.tableAfter d.newTable [[0x61, 0x62], [0x62], [0x61]]).size) ∧
    ∀ haystack ∈ [[0x61, 0x62], [0x62], [0x61]], ∀ part, part <+: haystack → ∃ answer,
      d.search (d.tableAfter d.newTable [[0x61, 0x62], [0x62], [0x61]]) part =
        (.ok answer, d.tableAfter d.newTable [[0x61, 0x62], [0x62], [0x61]]) := by
  have compiles : (Construction.ofPattern {} "ab").toOption.any (fun m => decide (m.size = 3)) = true := by
    decide +kernel
  obtain ⟨m, built, size⟩ := Automaton.exists_built compiles
  have room : Roomy ⟨m, some 8⟩ := ⟨by simp [size, RowId.greatest], by simp [size]⟩
  have answered := allAnswered_of_roomy built.wellFormed room (sound_ofAutomaton ⟨m, some 8⟩)
    [[0x61, 0x62], [0x62], [0x61]]
  exact ⟨⟨m, some 8⟩, built, rfl, table_content built answered⟩

end LazyMatcher

end ByteRegex
