import ByteRegex.Proofs.Table
import Mathlib.Data.List.Sort

/-! Sessions of one table: calls in any order, each with rows that earlier calls handed out, until a
reset takes everything back. Rows that were handed out are kept with the bytes that led to them. In
every session the table agrees with the simulation. -/

namespace ByteRegex

open LazyTable

namespace LazyTable

/-- A row number belongs to the set to which a word leads. -/
def Tracks (t : LazyTable) (m : Automaton) (id : RowId) (word : List UInt8) : Prop :=
  ∃ set, t.Names m id set ∧ ∀ a, a ∈ set ↔ m.Subset word a

variable {t t' : LazyTable} {d : LazyMatcher} {m : Automaton} {id : RowId} {word : List UInt8}

theorem Tracks.extend (h : t.Tracks m id word) (grown : t.Extends t') : t'.Tracks m id word := by
  obtain ⟨set, names, members⟩ := h
  exact ⟨set, names.extend grown, members⟩

theorem Tracks.accepting_iff (h : t.Tracks m id word) :
    id.accepting = true ↔ m.EndsIn false (m.Subset word) := by
  obtain ⟨set, names, members⟩ := h
  rw [names.accepting_iff]
  simp only [Automaton.EndsIn, members]

theorem Sound.tracks_start (h : t.Sound d) {accepted : Bool} (known : t.start = some (id, accepted)) :
    t.Tracks d.automaton id [] :=
  (h.start known).1

theorem Sound.eq_iff_of_tracks (h : t.Sound d) {id' : RowId} {word' : List UInt8}
    (tracks : t.Tracks d.automaton id word) (tracks' : t.Tracks d.automaton id' word') :
    id = id' ↔ ∀ a, d.automaton.Subset word a ↔ d.automaton.Subset word' a := by
  obtain ⟨set, names, members⟩ := tracks
  obtain ⟨set', names', members'⟩ := tracks'
  constructor
  · rintro rfl a
    have same := (names.eq_of_row names' rfl).2
    rw [← members, ← members', same]
  · intro same
    have equal : set = set' := (h.ascending names.found).eq_of_mem_iff (h.ascending names'.found)
      fun a => by rw [members, members', same]
    subst equal
    have known := h.index_iff.2 names
    rw [h.index_iff.2 names'] at known
    exact (Option.some.inj known).symm

theorem Sound.subset_of_dead (h : t.Sound d) (tracks : t.Tracks d.automaton id word)
    (dead : id.dead = true) (a : Nat) : ¬d.automaton.Subset word a := by
  obtain ⟨set, names, members⟩ := tracks
  have first := names.found
  rw [names.dead_iff.1 dead, h.first, Option.some.injEq] at first
  subst first
  exact fun inside => List.not_mem_nil ((members a).2 inside)

theorem sound_ofAutomaton (d : LazyMatcher) : d.newTable.Sound d := by
  have sets (k : Nat) (set : List Nat) : d.newTable.sets[k]? = some set ↔ k = 0 ∧ set = [] := by
    cases k <;> simp [LazyMatcher.newTable, LazyTable.ofAutomaton, eq_comm]
  have cells (i : Nat) (id : RowId) : d.newTable.cells[i]? = some id ↔ i < 256 ∧ id = .ofEmpty := by
    rw [LazyMatcher.newTable, LazyTable.ofAutomaton, Array.getElem?_replicate]
    simp [eq_comm]
  have index (set : List Nat) : d.newTable.index[set]? = if [] = set then some .ofEmpty else none := by
    simp only [LazyMatcher.newTable, LazyTable.ofAutomaton, Std.TreeMap.getElem?_insert,
      Std.compare_eq_iff_eq, Std.TreeMap.getElem?_emptyc]
  have dead : d.newTable.Names d.automaton .ofEmpty [] := by
    refine names_of_parts (k := 0) RowId.parts_ofEmpty ((sets 0 []).2 ⟨rfl, rfl⟩) (by decide) ?_
    refine iff_of_false Bool.false_ne_true ?_
    rintro ⟨a, member, -⟩
    cases member
  refine ⟨Array.size_replicate, rfl, ?_, ?_, ?_, ?_, ?_,
    by simp [LazyMatcher.newTable, LazyTable.ofAutomaton], ?_, ?_, rfl, NodeSet.fits_ofSize,
    NodeSet.fits_ofSize⟩
  · exact fun b => (cells b.toNat _).2 ⟨b.toNat_lt, rfl⟩
  · intro k set found
    obtain ⟨-, rfl⟩ := (sets k set).1 found
    exact List.Pairwise.nil
  · intro k set found
    obtain ⟨-, rfl⟩ := (sets k set).1 found
    exact fun a member => absurd member List.not_mem_nil
  · intro set id
    rw [index]
    constructor
    · intro known
      split at known
      case isTrue same =>
        cases known
        rw [← same]
        exact dead
      case isFalse => cases known
    · intro names
      have same := dead.eq_of_row names ((sets id.row set).1 names.found).1.symm
      rw [if_pos same.2, same.1]
  · intro k set b id found known
    obtain ⟨-, rfl⟩ := (sets k set).1 found
    obtain ⟨-, rfl⟩ := (cells _ id).1 known
    refine .inr ⟨[], dead, fun a => ⟨fun member => absurd member List.not_mem_nil, ?_⟩⟩
    rintro ⟨⟨x, member, -⟩, -⟩
    cases member
  · exact Nat.succ_le_succ (Nat.zero_le _)
  · intro limit _
    exact Nat.le_max_left 1 limit

theorem Sound.exists_names (h : t.Sound d) {k : Nat} {set : List Nat} (found : t.sets[k]? = some set) :
    ∃ id, id.row = k ∧ t.Names d.automaton id set := by
  classical
  obtain rfl | later := Nat.eq_zero_or_pos k
  · cases h.first.symm.trans found
    refine ⟨.ofEmpty, rfl, names_of_parts (k := 0) RowId.parts_ofEmpty found (by decide) ?_⟩
    exact iff_of_false Bool.false_ne_true fun ⟨a, member, _⟩ => List.not_mem_nil member
  · have row := set_lt found
    have most := h.size_le
    have fits : RowId.ofPlace (256 * k) ≠ none := by
      rw [Ne, RowId.ofPlace_eq_none_iff]
      simp only [RowId.greatest, RowId.greatestPlace] at most ⊢
      omega
    obtain ⟨r, made⟩ := Option.ne_none_iff_exists'.1 fits
    have parts := (RowId.parts_ofPlace made).mark (decide (d.automaton.EndsIn false (· ∈ set)))
    exact ⟨_, parts.row_eq, names_of_parts parts found
      (iff_of_false Bool.false_ne_true (Nat.ne_of_gt later)) decide_eq_true_iff⟩

/-- The layout of a table. The sets are ascending and all different, each has 256 cells, and the first
is the empty one, all of whose cells name it. The index has exactly the listed sets, with the place of
their first cell and the bits that say whether the set is the empty one and whether it leads to
acceptance. Every other cell is unknown or names the set that follows on its byte. -/
structure Layout (t : LazyTable) (m : Automaton) : Prop where
  cells_size : t.cells.size = 256 * t.sets.size
  first : t.sets[0]? = some []
  first_cell : ∀ b : UInt8, t.cells[b.toNat]? = some .ofEmpty
  ascending : ∀ set ∈ t.sets, set.Pairwise (· < ·)
  distinct : t.sets.toList.Nodup
  named : ∀ {k : Nat} {set : List Nat}, t.sets[k]? = some set → ∃ id, t.index[set]? = some id ∧
    id.place = 256 * k ∧ (id.dead = true ↔ k = 0) ∧
    (id.accepting = true ↔ m.EndsIn false (· ∈ set)) ∧ id.isUnknown = false
  listed : ∀ {set : List Nat} {id : RowId}, t.index[set]? = some id →
    ∃ k, t.sets[k]? = some set ∧ id.place = 256 * k
  cell : ∀ {k : Nat} {set : List Nat} (b : UInt8), t.sets[k]? = some set →
    ∃ id, t.cells[256 * k + b.toNat]? = some id ∧
      (id = .unknown ∨ ∃ next : List Nat, t.index[next]? = some id ∧
        ∀ a, a ∈ next ↔ m.Follows (· ∈ set) b a)

theorem Sound.eq_of_set (h : t.Sound d) {j k : Nat} {set : List Nat} (found : t.sets[j]? = some set)
    (found' : t.sets[k]? = some set) : j = k := by
  obtain ⟨id, rfl, names⟩ := h.exists_names found
  obtain ⟨id', rfl, names'⟩ := h.exists_names found'
  have known := h.index_iff.2 names
  rw [h.index_iff.2 names'] at known
  rw [Option.some.inj known]

theorem Sound.layout (h : t.Sound d) : t.Layout d.automaton := by
  refine ⟨h.cells_size, h.first, h.first_cell, ?_, ?_, ?_, ?_, ?_⟩
  · intro set member
    obtain ⟨k, found⟩ := Array.getElem?_of_mem member
    exact h.ascending found
  · rw [List.nodup_iff_getElem?_ne_getElem?]
    intro j k before bound same
    obtain ⟨set, found⟩ : ∃ set, t.sets.toList[k]? = some set := ⟨_, List.getElem?_eq_getElem bound⟩
    rw [found] at same
    rw [Array.getElem?_toList] at same found
    exact Nat.ne_of_lt before (h.eq_of_set same found)
  · intro k set found
    obtain ⟨id, rfl, names⟩ := h.exists_names found
    exact ⟨id, h.index_iff.2 names, names.place_eq, names.dead_iff, names.accepting_iff,
      names.unknown_eq⟩
  · intro set id known
    have names := h.index_iff.1 known
    exact ⟨id.row, names.found, names.place_eq⟩
  · intro k set b found
    obtain ⟨id, known⟩ := h.exists_cell found b
    refine ⟨id, known, (h.cell found known).imp_right ?_⟩
    rintro ⟨next, names, follows⟩
    exact ⟨next, h.index_iff.2 names, follows⟩

end LazyTable

namespace Automaton

variable {m : Automaton} {word : List UInt8}

theorem not_subset_append (none : ∀ a, ¬m.Subset word a) (bytes : List UInt8) (a : Nat) :
    ¬m.Subset (word ++ bytes) a := by
  induction bytes generalizing word a with
  | nil =>
    rw [List.append_nil]
    exact none a
  | cons b bytes ih =>
    have none' : ∀ a, ¬m.Subset (word ++ [b]) a := by
      intro a inside
      rw [subset_concat] at inside
      obtain ⟨⟨x, member, -⟩, -⟩ := inside
      exact none x member
    have rest := ih none' a
    rwa [List.append_assoc] at rest

end Automaton

namespace LazyMatcher

variable {d : LazyMatcher} {t : LazyTable} {id : RowId} {word : List UInt8}

theorem next_tracks (wf : d.automaton.WellFormed) (sound : t.Sound d)
    (tracks : t.Tracks d.automaton id word) (b : UInt8) :
    d.Grows t (d.next t id b) fun id' t' => t'.Tracks d.automaton id' (word ++ [b]) := by
  obtain ⟨set, names, members⟩ := tracks
  have same : (fun a => a ∈ set) = d.automaton.Subset word := funext fun a => propext (members a)
  have next := next_spec wf sound names b
  rw [same, ← Automaton.subset_concat] at next
  exact next

/-- From the row to which a word leads, reading the rest of a haystack finds out whether the haystack
is accepted. -/
theorem run_spec (wf : d.automaton.WellFormed) (sound : t.Sound d)
    (tracks : t.Tracks d.automaton id word) {bytes : List UInt8} (nonempty : word ++ bytes ≠ []) :
    d.Grows t (d.run t id bytes) fun answer _ =>
      answer = true ↔ d.automaton.Accepts (word ++ bytes) := by
  induction bytes generalizing t id word with
  | nil =>
    rw [Automaton.accepts_iff_endsIn wf nonempty, List.append_nil]
    exact grows_ok sound (.refl t) tracks.accepting_iff
  | cons b bytes ih =>
    have next := next_tracks wf sound tracks b
    simp only [run]
    generalize d.next t id b = result at next ⊢
    obtain ⟨outcome, t'⟩ := result
    cases outcome with
    | error reason => exact next.of_error
    | ok id' =>
      have tracks' := next.ok rfl
      have parts : word ++ b :: bytes = word ++ [b] ++ bytes := by simp
      refine Grows.of_extends next.extension ?_
      simp only
      split
      -- an empty set stays empty, so stopping at it loses nothing
      case isTrue dead =>
        refine grows_ok next.sound (.refl t') ⟨by simp, fun accepts => ?_⟩
        rw [Automaton.accepts_iff_endsIn wf nonempty, parts] at accepts
        obtain ⟨a, inside, -⟩ := accepts
        exact absurd inside (Automaton.not_subset_append (next.sound.subset_of_dead tracks' dead) bytes a)
      case isFalse =>
        rw [parts] at nonempty ⊢
        exact ih next.sound tracks' nonempty

theorem search_spec (wf : d.automaton.WellFormed) (sound : t.Sound d) (haystack : List UInt8) :
    d.Grows t (d.search t haystack) fun answer _ => answer = true ↔ d.automaton.Accepts haystack := by
  have first := start_spec wf sound
  simp only [search]
  generalize d.start t = result at first ⊢
  obtain ⟨outcome, t'⟩ := result
  cases outcome with
  | error reason => exact first.of_error
  | ok found =>
    obtain ⟨id, accepted⟩ := found
    have known := first.ok rfl
    refine Grows.of_extends first.extension ?_
    simp only
    split
    case isTrue empty =>
      rw [List.isEmpty_iff.1 empty]
      exact grows_ok first.sound (.refl t') (first.sound.start known).2
    case isFalse more =>
      have nonempty : [] ++ haystack ≠ [] := by simpa using more
      exact run_spec wf first.sound (first.sound.tracks_start known) nonempty

/-- A call on a table. The row from which to go on is one that was handed out before. -/
inductive Call
  | start
  | next (source : Nat) (b : UInt8)
  | search (haystack : List UInt8)
  | reset
  deriving DecidableEq

/-- A table, and the rows that were handed out since it was new, each with the bytes that led there. -/
structure Session where
  table : LazyTable
  handed : List (List UInt8 × RowId)

namespace Session

def new (d : LazyMatcher) : Session :=
  ⟨d.newTable, []⟩

def hand (handed : List (List UInt8 × RowId)) (word : List UInt8) :
    Except Failure RowId → List (List UInt8 × RowId)
  | .ok id => handed ++ [(word, id)]
  | .error _ => handed

def perform (d : LazyMatcher) (s : Session) : Call → Session
  | .start =>
    let (first, table) := d.start s.table
    ⟨table, hand s.handed [] (first.map (·.1))⟩
  | .next source b =>
    match s.handed[source]? with
    | none => s
    | some (word, id) =>
      let (next, table) := d.next s.table id b
      ⟨table, hand s.handed (word ++ [b]) next⟩
  | .search haystack => { s with table := (d.search s.table haystack).2 }
  | .reset => new d

def after (d : LazyMatcher) (calls : List Call) : Session :=
  calls.foldl (perform d) (new d)

structure Sound (d : LazyMatcher) (s : Session) : Prop where
  table : s.table.Sound d
  handed : ∀ entry ∈ s.handed, s.table.Tracks d.automaton entry.2 entry.1

variable {s : Session}

theorem handed_extend {handed : List (List UInt8 × RowId)} {t' : LazyTable}
    {outcome : Except Failure RowId} (grown : t.Extends t')
    (old : ∀ entry ∈ handed, t.Tracks d.automaton entry.2 entry.1)
    (good : ∀ id, outcome = .ok id → t'.Tracks d.automaton id word) :
    ∀ entry ∈ hand handed word outcome, t'.Tracks d.automaton entry.2 entry.1 := by
  intro entry member
  cases outcome with
  | error reason => exact (old entry member).extend grown
  | ok id =>
    obtain before | last := List.mem_append.1 member
    · exact (old entry before).extend grown
    · rw [List.mem_singleton.1 last]
      exact good id rfl

theorem perform_spec (wf : d.automaton.WellFormed) (h : s.Sound d) {call : Call}
    (goesOn : call ≠ .reset) :
    (perform d s call).Sound d ∧ s.table.Extends (perform d s call).table := by
  cases call with
  | start =>
    have first := start_spec wf h.table
    simp only [perform]
    generalize d.start s.table = result at first ⊢
    obtain ⟨outcome, t'⟩ := result
    refine ⟨⟨first.sound, handed_extend first.extension h.handed ?_⟩, first.extension⟩
    intro id given
    cases outcome with
    | error reason => cases given
    | ok found =>
      cases given
      exact first.sound.tracks_start (first.ok rfl)
  | next source b =>
    simp only [perform]
    cases found : s.handed[source]? with
    | none => exact ⟨h, .refl _⟩
    | some entry =>
      have tracks := h.handed entry (List.mem_of_getElem? found)
      have next := next_tracks wf h.table tracks b
      exact ⟨⟨next.sound, handed_extend next.extension h.handed fun id => next.ok⟩, next.extension⟩
  | search haystack =>
    have done := search_spec wf h.table haystack
    exact ⟨⟨done.sound, fun entry member => (h.handed entry member).extend done.extension⟩,
      done.extension⟩
  | reset => exact absurd rfl goesOn

theorem sound_new : (new d).Sound d :=
  ⟨sound_ofAutomaton d, fun _ member => absurd member List.not_mem_nil⟩

theorem perform_sound (wf : d.automaton.WellFormed) (h : s.Sound d) (call : Call) :
    (perform d s call).Sound d := by
  by_cases again : call = .reset
  · rw [again]
    exact sound_new
  · exact (perform_spec wf h again).1

theorem sound_after (wf : d.automaton.WellFormed) (calls : List Call) : (after d calls).Sound d := by
  have run (s : Session) (h : s.Sound d) : (calls.foldl (perform d) s).Sound d := by
    induction calls generalizing s with
    | nil => exact h
    | cons call calls ih => exact ih _ (perform_sound wf h call)
  exact run _ sound_new

/-- In every session, what the table answers is what a simulation answers: searches that succeed, rows
that were reached by hand on at least one byte, and an accepting first row. -/
theorem agrees_with_simulation {m : Automaton} (built : m.Built) (rowLimit : Option Nat)
    (calls : List Call) :
    (∀ haystack answer, (search ⟨m, rowLimit⟩ (after ⟨m, rowLimit⟩ calls).table haystack).1 =
      .ok answer → (Simulation.search m (.ofAutomaton m) haystack).1 = some answer) ∧
    (∀ haystack id, (haystack, id) ∈ (after ⟨m, rowLimit⟩ calls).handed → haystack ≠ [] →
      (Simulation.search m (.ofAutomaton m) haystack).1 = some id.accepting) ∧
    ∀ id, ([], id) ∈ (after ⟨m, rowLimit⟩ calls).handed → id.accepting = true →
      (Simulation.search m (.ofAutomaton m) []).1 = some true := by
  have wf := built.wellFormed
  have session := sound_after (d := ⟨m, rowLimit⟩) wf calls
  have simulated (haystack : List UInt8) (b : Bool) (right : b = true ↔ m.Accepts haystack) :
      (Simulation.search m (.ofAutomaton m) haystack).1 = some b := by
    have same : m.accepts haystack = b :=
      Bool.eq_iff_iff.2 ((Automaton.accepts_iff wf haystack).trans right.symm)
    rw [Simulation.search_eq wf Simulation.fits_ofAutomaton, same]
  refine ⟨?_, ?_, ?_⟩
  · intro haystack answer found
    exact simulated haystack answer ((search_spec wf session.table haystack).ok found)
  · intro haystack id given nonempty
    have tracks := session.handed (haystack, id) given
    refine simulated haystack id.accepting ?_
    rw [tracks.accepting_iff, Automaton.accepts_iff_endsIn wf nonempty]
  · intro id given accepting
    have tracks := session.handed ([], id) given
    have ends := tracks.accepting_iff.1 accepting
    exact simulated [] true ⟨fun _ => Automaton.accepts_nil_of_endsIn wf ends, fun _ => rfl⟩

theorem agrees_with_simulation_of_letter : ∃ m : Automaton, m.Built ∧
    (∀ haystack answer, (search ⟨m, some 2⟩
      (after ⟨m, some 2⟩ [.start, .next 0 0x61, .search [0x62]]).table haystack).1 =
      .ok answer → (Simulation.search m (.ofAutomaton m) haystack).1 = some answer) ∧
    (∀ haystack id, (haystack, id) ∈
        (after ⟨m, some 2⟩ [.start, .next 0 0x61, .search [0x62]]).handed → haystack ≠ [] →
      (Simulation.search m (.ofAutomaton m) haystack).1 = some id.accepting) ∧
    ∀ id, ([], id) ∈ (after ⟨m, some 2⟩ [.start, .next 0 0x61, .search [0x62]]).handed →
      id.accepting = true → (Simulation.search m (.ofAutomaton m) []).1 = some true := by
  have compiles : (Construction.ofPattern {} "a").isOk = true := by decide +kernel
  obtain ⟨m, made⟩ := exists_of_isOk compiles
  have built : m.Built := ⟨{}, .inr ⟨"a", made⟩⟩
  exact ⟨m, built, agrees_with_simulation built (some 2) [.start, .next 0 0x61, .search [0x62]]⟩

/-- In every session the table keeps its invariant and its layout. Rows that were handed out belong to
the sets to which their words lead, and two of them are the same exactly if these sets are. A call other
than a reset only makes the table grow. -/
theorem table_invariant {m : Automaton} (built : m.Built) (rowLimit : Option Nat) (calls : List Call) :
    (after ⟨m, rowLimit⟩ calls).table.Sound ⟨m, rowLimit⟩ ∧
    (after ⟨m, rowLimit⟩ calls).table.Layout m ∧
    (∀ entry ∈ (after ⟨m, rowLimit⟩ calls).handed, ∃ set : List Nat,
      (after ⟨m, rowLimit⟩ calls).table.index[set]? = some entry.2 ∧
        ∀ a, a ∈ set ↔ m.Subset entry.1 a) ∧
    (∀ entry ∈ (after ⟨m, rowLimit⟩ calls).handed, ∀ entry' ∈ (after ⟨m, rowLimit⟩ calls).handed,
      (entry.2 = entry'.2 ↔ ∀ a, m.Subset entry.1 a ↔ m.Subset entry'.1 a)) ∧
    ∀ call, call ≠ .reset → (after ⟨m, rowLimit⟩ calls).table.Extends
      (after ⟨m, rowLimit⟩ (calls ++ [call])).table := by
  have wf := built.wellFormed
  have session := sound_after (d := ⟨m, rowLimit⟩) wf calls
  refine ⟨session.table, session.table.layout, ?_, ?_, ?_⟩
  · intro entry given
    obtain ⟨set, names, members⟩ := session.handed entry given
    exact ⟨set, session.table.index_iff.2 names, members⟩
  · intro entry given entry' given'
    exact session.table.eq_iff_of_tracks (session.handed entry given) (session.handed entry' given')
  · intro call goesOn
    have last : after ⟨m, rowLimit⟩ (calls ++ [call]) =
        perform ⟨m, rowLimit⟩ (after ⟨m, rowLimit⟩ calls) call := List.foldl_append ..
    rw [last]
    exact (perform_spec wf session goesOn).2

theorem table_invariant_of_letter : ∃ m : Automaton, m.Built ∧
    (after ⟨m, none⟩ [.start, .next 0 0x61, .next 1 0x61]).table.Sound ⟨m, none⟩ ∧
    (after ⟨m, none⟩ [.start, .next 0 0x61, .next 1 0x61]).table.Layout m ∧
    (∀ entry ∈ (after ⟨m, none⟩ [.start, .next 0 0x61, .next 1 0x61]).handed, ∃ set : List Nat,
      (after ⟨m, none⟩ [.start, .next 0 0x61, .next 1 0x61]).table.index[set]? = some entry.2 ∧
        ∀ a, a ∈ set ↔ m.Subset entry.1 a) ∧
    (∀ entry ∈ (after ⟨m, none⟩ [.start, .next 0 0x61, .next 1 0x61]).handed,
      ∀ entry' ∈ (after ⟨m, none⟩ [.start, .next 0 0x61, .next 1 0x61]).handed,
      (entry.2 = entry'.2 ↔ ∀ a, m.Subset entry.1 a ↔ m.Subset entry'.1 a)) ∧
    ∀ call, call ≠ .reset → (after ⟨m, none⟩ [.start, .next 0 0x61, .next 1 0x61]).table.Extends
      (after ⟨m, none⟩ ([.start, .next 0 0x61, .next 1 0x61] ++ [call])).table := by
  have compiles : (Construction.ofPattern {} "a").isOk = true := by decide +kernel
  obtain ⟨m, made⟩ := exists_of_isOk compiles
  have built : m.Built := ⟨{}, .inr ⟨"a", made⟩⟩
  exact ⟨m, built, table_invariant built none [.start, .next 0 0x61, .next 1 0x61]⟩

end Session

end LazyMatcher

end ByteRegex
