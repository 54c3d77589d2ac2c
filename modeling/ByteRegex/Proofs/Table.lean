import ByteRegex.Proofs.RowWord
import ByteRegex.Proofs.Subsets
import ByteRegex.Search.LazyMatcher

/-! The invariant of a table. Sets, index and cells agree with each other and with the sets of nodes
that words lead to. A call only appends rows and fills in cells, so a row keeps its meaning. -/

namespace ByteRegex

open LazyTable

namespace LazyMatcher

structure Ending.Decides (e : Ending) (m : Automaton) (answer : Prop) : Prop where
  accepted : ∃ b, e.accepted = some b ∧ (b = true ↔ answer)
  left_eq : e.stack.left = []
  fits : e.scratch.Fits m

variable {m : Automaton} {s : Bool}

theorem hasAccept_iff (wf : m.WellFormed) {set : NodeSet} {p : Place} {nodes : Nat → Prop}
    (holds : set.Holds m p nodes) : hasAccept m set.members = true ↔ nodes m.accept := by
  rw [hasAccept, Array.any_eq_true']
  constructor
  · rintro ⟨a, member, found⟩
    have same := wf.accept_iff.1 (beq_iff_eq.1 found)
    rw [← same]
    exact ((holds.members_iff a).1 member).1
  · intro inside
    have member := (holds.members_iff m.accept).2 ⟨inside, Automaton.accept_counts wf⟩
    exact ⟨m.accept, member, beq_iff_eq.2 (wf.accept_iff.2 rfl)⟩

/-- The end anchors among nodes that count lead to the accepting node exactly if one of the nodes
reaches it. -/
theorem endWith_spec (wf : m.WellFormed) {scratch : NodeSet} {stack : Stack} {nodes : Nat → Prop}
    {ids : List Nat} (empty : stack.left = []) (holds : scratch.Holds m ⟨s, some true⟩ nodes)
    (closed : m.Closed ⟨s, some true⟩ nodes []) (counts : ∀ a ∈ ids, m.Counts ⟨false, none⟩ a) :
    (endWith m s scratch stack ids).Decides m
      (nodes m.accept ∨ ∃ a ∈ ids, m.Reaches ⟨s, some true⟩ a m.accept) := by
  induction ids generalizing scratch stack nodes with
  | nil =>
    refine ⟨⟨hasAccept m scratch.members, rfl, ?_⟩, empty, holds.fits⟩
    simpa using hasAccept_iff wf holds
  | cons a ids ih =>
    obtain ⟨n, found, member⟩ := counts a (List.mem_cons_self ..)
    have counts' : ∀ b ∈ ids, m.Counts ⟨false, none⟩ b :=
      fun b later => counts b (List.mem_cons_of_mem a later)
    have other (no : n ≠ .accept) : m.accept ≠ a := by
      rintro rfl
      exact no (Option.some.inj (found.symm.trans (wf.accept_iff.2 rfl)))
    simp only [List.mem_cons, or_and_right, exists_or, exists_eq_left,
      Automaton.reaches_iff found]
    cases n with
    | consume label next =>
      have rest := ih empty holds closed counts'
      simpa [endWith, found, Node.silentTargets, other (by simp)] using rest
    | split x y => cases member
    | accept =>
      have here := wf.accept_iff.1 found
      simp only [endWith, found]
      exact ⟨⟨true, rfl, by simp [here]⟩, empty, holds.fits⟩
    | require anchor next =>
      cases anchor with
      | textStart => cases member
      | textEnd =>
        have bound := wf.target_lt found (List.mem_singleton.2 rfl)
        -- the walk only adds what this anchor leads to, and the rest is asked of a larger set
        have walk := Automaton.closure_spec wf held empty holds closed bound
        have closed' := closed.add_reached (fun c => c = next)
        simp only [exists_eq_left] at closed'
        have rest := ih walk.left_eq walk.holds closed' counts'
        simpa [endWith, found, Node.silentTargets, other (by simp), walk.finished, or_assoc] using rest

end LazyMatcher

namespace LazyTable

/-- A row's name belongs to a set of nodes. -/
structure Names (t : LazyTable) (m : Automaton) (id : RowId) (set : List Nat) : Prop where
  found : t.sets[id.row]? = some set
  place_eq : id.place = 256 * id.row
  unknown_eq : id.isUnknown = false
  dead_iff : id.dead = true ↔ id.row = 0
  accepting_iff : id.accepting = true ↔ m.EndsIn false (· ∈ set)

/-- The invariant of a table. Every set has 256 cells, the index is the inverse of the list of sets, and
every cell is unknown or names the row of the successor. -/
structure Sound (t : LazyTable) (d : LazyMatcher) : Prop where
  cells_size : t.cells.size = 256 * t.size
  first : t.sets[0]? = some []
  first_cell : ∀ b : UInt8, t.cells[b.toNat]? = some .ofEmpty
  ascending : ∀ {k : Nat} {set : List Nat}, t.sets[k]? = some set → set.Pairwise (· < ·)
  counts : ∀ {k : Nat} {set : List Nat}, t.sets[k]? = some set →
    ∀ a ∈ set, d.automaton.Counts ⟨false, none⟩ a
  index_iff : ∀ {set : List Nat} {id : RowId}, t.index[set]? = some id ↔ t.Names d.automaton id set
  cell : ∀ {k : Nat} {set : List Nat} {b : UInt8} {next : RowId}, t.sets[k]? = some set →
    t.cells[256 * k + b.toNat]? = some next → next = .unknown ∨
      ∃ set', t.Names d.automaton next set' ∧ ∀ a, a ∈ set' ↔ d.automaton.Follows (· ∈ set) b a
  start : ∀ {id : RowId} {accepted : Bool}, t.start = some (id, accepted) →
    (∃ set, t.Names d.automaton id set ∧ ∀ a, a ∈ set ↔ d.automaton.Begins a) ∧
      (accepted = true ↔ d.automaton.Accepts [])
  size_le : t.size ≤ RowId.greatest + 1
  size_le_limit : ∀ {limit : Nat}, d.rowLimit = some limit → t.size ≤ max 1 limit
  left_eq : t.stack.left = []
  current : t.current.Fits d.automaton
  scratch : t.scratch.Fits d.automaton

/-- One table has everything that another knows, in the same places. -/
structure Extends (t t' : LazyTable) : Prop where
  sets : ∀ {k : Nat} {set : List Nat}, t.sets[k]? = some set → t'.sets[k]? = some set
  cells : ∀ {i : Nat} {id : RowId}, t.cells[i]? = some id → id.isUnknown = false →
    t'.cells[i]? = some id
  index : ∀ {set : List Nat} {id : RowId}, t.index[set]? = some id → t'.index[set]? = some id
  start : ∀ {first : RowId × Bool}, t.start = some first → t'.start = some first

/-- Two tables have the same rows, index and start. Their space for walks may differ. -/
structure SameContent (t t' : LazyTable) : Prop where
  cells_eq : t'.cells = t.cells
  sets_eq : t'.sets = t.sets
  index_eq : t'.index = t.index
  start_eq : t'.start = t.start

variable {t t' t'' : LazyTable} {d : LazyMatcher} {m : Automaton} {id id' : RowId}
  {set set' : List Nat} {b : UInt8}

theorem Extends.refl (t : LazyTable) : t.Extends t :=
  ⟨id, fun known _ => known, id, id⟩

theorem Extends.trans (h : t.Extends t') (h' : t'.Extends t'') : t.Extends t'' :=
  ⟨fun found => h'.sets (h.sets found), fun known certain => h'.cells (h.cells known certain) certain,
    fun known => h'.index (h.index known), fun known => h'.start (h.start known)⟩

theorem SameContent.extension (h : t.SameContent t') : t.Extends t' := by
  obtain ⟨cells, sets, index, start⟩ := h
  exact ⟨fun found => sets ▸ found, fun known _ => cells ▸ known, fun known => index ▸ known,
    fun known => start ▸ known⟩

theorem Names.extend (h : t.Names m id set) (grown : t.Extends t') : t'.Names m id set :=
  { h with found := grown.sets h.found }

theorem Names.eq_of_row (h : t.Names m id set) (h' : t.Names m id' set') (same : id.row = id'.row) :
    id = id' ∧ set = set' := by
  have found := h.found
  rw [same, h'.found, Option.some.injEq] at found
  subst found
  refine ⟨RowId.eq_of_parts ?_ ?_ ?_ ?_, rfl⟩
  · rw [h.place_eq, h'.place_eq, same]
  · rw [h.unknown_eq, h'.unknown_eq]
  · rw [Bool.eq_iff_iff, h.dead_iff, h'.dead_iff, same]
  · rw [Bool.eq_iff_iff, h.accepting_iff, h'.accepting_iff]

theorem names_of_parts {k : Nat} {dead accepting : Bool} (parts : id.Parts (256 * k) dead accepting)
    (found : t.sets[k]? = some set) (first : dead = true ↔ k = 0)
    (ends : accepting = true ↔ m.EndsIn false (· ∈ set)) : t.Names m id set := by
  have row := parts.row_eq
  refine ⟨by rwa [row], by rw [row, parts.place_eq], parts.unknown_eq, ?_, ?_⟩
  · rw [parts.dead_eq, first, row]
  · rw [parts.accepting_eq, ends]

theorem names_congr (same : t'.sets = t.sets) : t'.Names m id set ↔ t.Names m id set :=
  ⟨fun h => { h with found := same ▸ h.found }, fun h => { h with found := same ▸ h.found }⟩

theorem set_lt {k : Nat} (found : t.sets[k]? = some set) : k < t.size :=
  (Array.getElem?_eq_some_iff.1 found).1

theorem Sound.size_pos (h : t.Sound d) : 0 < t.size :=
  set_lt h.first

theorem place_inj {j k : Nat} {b c : UInt8} (same : 256 * j + b.toNat = 256 * k + c.toNat) :
    j = k ∧ b = c := by
  have small := b.toNat_lt
  have small' := c.toNat_lt
  exact ⟨by omega, UInt8.toNat_inj.1 (by omega)⟩

theorem Sound.exists_cell (h : t.Sound d) {k : Nat} (found : t.sets[k]? = some set) (b : UInt8) :
    ∃ id, t.cells[256 * k + b.toNat]? = some id := by
  have row := set_lt found
  have small := b.toNat_lt
  exact ⟨_, Array.getElem?_eq_getElem (by rw [h.cells_size]; omega)⟩

theorem Sound.cell?_of_names (h : t.Sound d) (names : t.Names m id set) (b : UInt8) :
    ∃ next, t.cell? id b = some next := by
  rw [cell?, names.place_eq]
  exact h.exists_cell names.found b

theorem Sound.names_of_cell? (h : t.Sound d) (names : t.Names m id set) {next : RowId}
    (known : t.cell? id b = some next) (certain : next.isUnknown = false) :
    ∃ set', t.Names d.automaton next set' ∧ ∀ a, a ∈ set' ↔ d.automaton.Follows (· ∈ set) b a := by
  rw [cell?, names.place_eq] at known
  obtain rfl | successor := h.cell names.found known
  · cases certain
  · exact successor

theorem Sound.row_ne_zero (h : t.Sound d) (names : t.Names m id set) {next : RowId}
    (known : t.cell? id b = some next) (unknown : next.isUnknown = true) : id.row ≠ 0 := by
  intro first
  rw [cell?, names.place_eq, first, Nat.mul_zero, Nat.zero_add, h.first_cell] at known
  cases known
  cases unknown

theorem Sound.congr (h : t.Sound d) (cells : t'.cells = t.cells) (sets : t'.sets = t.sets)
    (index : t'.index = t.index)
    (start : ∀ {id : RowId} {accepted : Bool}, t'.start = some (id, accepted) →
      (∃ set, t.Names d.automaton id set ∧ ∀ a, a ∈ set ↔ d.automaton.Begins a) ∧
        (accepted = true ↔ d.automaton.Accepts []))
    (left_eq : t'.stack.left = []) (current : t'.current.Fits d.automaton)
    (scratch : t'.scratch.Fits d.automaton) : t'.Sound d := by
  have size : t'.size = t.size := congrArg Array.size sets
  refine ⟨?_, ?_, ?_, ?_, ?_, ?_, ?_, ?_, ?_, ?_, left_eq, current, scratch⟩
  · rw [cells, size, h.cells_size]
  · rw [sets, h.first]
  · rw [cells]
    exact h.first_cell
  · rw [sets]
    exact h.ascending
  · rw [sets]
    exact h.counts
  · intro set id
    rw [index, names_congr sets]
    exact h.index_iff
  · simp only [cells, sets, names_congr sets]
    exact h.cell
  · simp only [names_congr sets]
    exact start
  · rw [size]
    exact h.size_le
  · rw [size]
    exact h.size_le_limit

theorem Sound.workspace (h : t.Sound d) {current scratch : NodeSet} {stack : Stack} (n : Nat)
    (left_eq : stack.left = []) (fits : current.Fits d.automaton) (fits' : scratch.Fits d.automaton) :
    Sound { t with current, scratch, stack, sortSpace := n } d :=
  h.congr rfl rfl rfl h.start left_eq fits fits'

theorem extends_workspace (t : LazyTable) (current scratch : NodeSet) (stack : Stack) (n : Nat) :
    t.Extends { t with current, scratch, stack, sortSpace := n } :=
  ⟨id, fun known _ => known, id, id⟩

-- comparing the two tables as wholes would compare their cells one by one
@[simp] theorem start_withRow : (t.withRow set id).start = t.start := by
  rw [withRow]

@[simp] theorem stack_withRow : (t.withRow set id).stack = t.stack := by
  rw [withRow]

@[simp] theorem current_withRow : (t.withRow set id).current = t.current := by
  rw [withRow]

@[simp] theorem scratch_withRow : (t.withRow set id).scratch = t.scratch := by
  rw [withRow]

theorem sets_withRow (k : Nat) :
    (t.withRow set id).sets[k]? = if k = t.size then some set else t.sets[k]? := by
  rw [withRow, Array.getElem?_push]
  rfl

theorem size_withRow : (t.withRow set id).size = t.size + 1 :=
  Array.size_push ..

theorem cells_size_withRow : (t.withRow set id).cells.size = t.cells.size + 256 := by
  simp [withRow]

theorem cells_withRow (i : Nat) : (t.withRow set id).cells[i]? =
    if i < t.cells.size then t.cells[i]? else if i < t.cells.size + 256 then some .unknown else none := by
  rw [withRow, Array.getElem?_append, Array.getElem?_replicate]
  split
  case isTrue => rfl
  case isFalse outside =>
    have shift : i - t.cells.size < 256 ↔ i < t.cells.size + 256 := by omega
    simp only [shift]

theorem index_withRow (other : List Nat) : (t.withRow set id).index[other]? =
    if set = other then some id else t.index[other]? := by
  rw [withRow, Std.TreeMap.getElem?_insert]
  simp only [Std.compare_eq_iff_eq]

theorem extends_withRow (new : t.index[set]? = none) : t.Extends (t.withRow set id) := by
  refine ⟨?_, ?_, ?_, fun known => start_withRow.trans known⟩
  · intro k other found
    have before : k < t.size := set_lt found
    rw [sets_withRow, if_neg (Nat.ne_of_lt before), found]
  · intro i name known _
    rw [cells_withRow, if_pos (Array.getElem?_eq_some_iff.1 known).1, known]
  · intro other name known
    have differ : set ≠ other := by
      rintro rfl
      cases new.symm.trans known
    rw [index_withRow, if_neg differ, known]

theorem names_withRow (h : t.Sound d) {accepting : Bool} (parts : id.Parts t.cells.size false accepting)
    (ends : accepting = true ↔ m.EndsIn false (· ∈ set)) : (t.withRow set id).Names m id set := by
  have pos := h.size_pos
  rw [h.cells_size] at parts
  refine names_of_parts parts ?_ (iff_of_false (by decide) (Nat.ne_of_gt pos)) ends
  rw [sets_withRow, if_pos rfl]

theorem names_withRow_iff (h : t.Sound d) {accepting : Bool}
    (parts : id.Parts t.cells.size false accepting) (ends : accepting = true ↔ m.EndsIn false (· ∈ set))
    {name : RowId} {other : List Nat} :
    (t.withRow set id).Names m name other ↔ name = id ∧ other = set ∨ t.Names m name other := by
  have added := names_withRow h parts ends
  rw [h.cells_size] at parts
  constructor
  · intro names
    by_cases last : name.row = t.size
    · exact .inl (names.eq_of_row added (last.trans parts.row_eq.symm))
    · have found := names.found
      rw [sets_withRow, if_neg last] at found
      exact .inr { names with found }
  · rintro (⟨rfl, rfl⟩ | names)
    · exact added
    · refine { names with found := ?_ }
      rw [sets_withRow, if_neg (Nat.ne_of_lt (set_lt names.found)), names.found]

theorem Sound.withRow (h : t.Sound d) (new : t.index[set]? = none)
    (ascending : set.Pairwise (· < ·)) (counts : ∀ a ∈ set, d.automaton.Counts ⟨false, none⟩ a)
    {accepting : Bool} (parts : id.Parts t.cells.size false accepting)
    (ends : accepting = true ↔ d.automaton.EndsIn false (· ∈ set))
    (room : t.size ≤ RowId.greatest) (roomLimit : ∀ limit, d.rowLimit = some limit → t.size < limit) :
    (t.withRow set id).Sound d := by
  have grown : t.Extends (t.withRow set id) := extends_withRow new
  have one : (t.withRow set id).size = t.size + 1 := size_withRow
  have pos := h.size_pos
  -- a set is the new one, or was there before
  have either {k : Nat} {other : List Nat} (found : (t.withRow set id).sets[k]? = some other) :
      k = t.size ∧ other = set ∨ t.sets[k]? = some other := by
    rw [sets_withRow] at found
    split at found
    case isTrue last => exact .inl ⟨last, (Option.some.inj found).symm⟩
    case isFalse => exact .inr found
  refine ⟨?_, ?_, ?_, ?_, ?_, ?_, ?_, ?_, ?_, ?_, by simpa using h.left_eq, by simpa using h.current,
    by simpa using h.scratch⟩
  · rw [one, cells_size_withRow, h.cells_size]
    omega
  · exact grown.sets h.first
  · exact fun b => grown.cells (h.first_cell b) rfl
  · intro k other found
    obtain ⟨-, rfl⟩ | old := either found
    · exact ascending
    · exact h.ascending old
  · intro k other found
    obtain ⟨-, rfl⟩ | old := either found
    · exact counts
    · exact h.counts old
  · intro other name
    rw [index_withRow, names_withRow_iff h parts ends, ← h.index_iff]
    by_cases same : set = other
    · subst same
      simp [new, eq_comm]
    · simp [same, Ne.symm same]
  · intro k other b next found known
    have small := b.toNat_lt
    rw [cells_withRow, h.cells_size] at known
    obtain ⟨rfl, rfl⟩ | old := either found
    · rw [if_neg (by omega), if_pos (by omega)] at known
      exact .inl (Option.some.inj known).symm
    · have row := set_lt old
      rw [if_pos (by omega)] at known
      refine (h.cell old known).imp_right ?_
      rintro ⟨after, names, follows⟩
      exact ⟨after, names.extend grown, follows⟩
  · intro name accepted known
    obtain ⟨⟨other, names, begins⟩, answer⟩ := h.start (start_withRow.symm.trans known)
    exact ⟨⟨other, names.extend grown, begins⟩, answer⟩
  · omega
  · intro limit limited
    have less := roomLimit limit limited
    omega

theorem cells_setCell {next : RowId} (i : Nat) (differ : id.place + b.toNat ≠ i) :
    (t.setCell id b next).cells[i]? = t.cells[i]? := by
  rw [setCell, Array.getElem?_setIfInBounds_ne differ]

theorem cell?_setCell {next old : RowId} (was : t.cell? id b = some old) :
    (t.setCell id b next).cell? id b = some next := by
  rw [cell?, setCell, Array.getElem?_setIfInBounds_self_of_lt (Array.getElem?_eq_some_iff.1 was).1]

theorem Extends.setCell (h : t.Extends t') {next old : RowId} (was : t.cell? id b = some old)
    (unknown : old.isUnknown = true) : t.Extends (t'.setCell id b next) := by
  refine ⟨h.sets, ?_, h.index, h.start⟩
  intro i name known certain
  have differ : id.place + b.toNat ≠ i := by
    rintro rfl
    cases known.symm.trans was
    cases certain.symm.trans unknown
  rw [cells_setCell i differ, h.cells known certain]

theorem names_setCell_iff {next : RowId} {name : RowId} :
    (t.setCell id b next).Names m name set ↔ t.Names m name set :=
  names_congr rfl

theorem Sound.setCell (h : t.Sound d) (names : t.Names d.automaton id set) (later : id.row ≠ 0)
    {next : RowId} (names' : t.Names d.automaton next set')
    (follows : ∀ a, a ∈ set' ↔ d.automaton.Follows (· ∈ set) b a) : (t.setCell id b next).Sound d := by
  refine ⟨?_, h.first, ?_, h.ascending, h.counts, ?_, ?_, ?_, h.size_le, h.size_le_limit, h.left_eq,
    h.current, h.scratch⟩
  · rw [LazyTable.setCell, Array.size_setIfInBounds]
    exact h.cells_size
  · intro c
    have small := c.toNat_lt
    rw [cells_setCell, h.first_cell]
    rw [names.place_eq]
    omega
  · intro other name
    rw [names_setCell_iff]
    exact h.index_iff
  · intro k other c after found known
    simp only [names_setCell_iff]
    by_cases here : id.place + b.toNat = 256 * k + c.toNat
    · obtain ⟨old, was⟩ := h.cell?_of_names names b
      have filled : (t.setCell id b next).cells[id.place + b.toNat]? = some next := cell?_setCell was
      rw [← here, filled, Option.some.injEq] at known
      rw [names.place_eq] at here
      -- no other row and byte have the cell that changes
      obtain ⟨rfl, rfl⟩ := place_inj here
      cases found.symm.trans names.found
      exact .inr ⟨set', known ▸ names', follows⟩
    · rw [cells_setCell _ here] at known
      exact h.cell found known
  · intro name accepted known
    simp only [names_setCell_iff]
    exact h.start known

theorem Sound.withStart (h : t.Sound d) {accepted : Bool} (names : t.Names d.automaton id set)
    (begins : ∀ a, a ∈ set ↔ d.automaton.Begins a) (answer : accepted = true ↔ d.automaton.Accepts []) :
    Sound { t with start := some (id, accepted) } d := by
  refine h.congr rfl rfl rfl ?_ h.left_eq h.current h.scratch
  intro name other known
  cases known
  exact ⟨⟨set, names, begins⟩, answer⟩

theorem Extends.withStart (h : t.Extends t') (unknown : t.start = none) (first : RowId × Bool) :
    t.Extends { t' with start := some first } := by
  refine ⟨h.sets, h.cells, h.index, fun known => ?_⟩
  cases unknown.symm.trans known

end LazyTable

namespace LazyMatcher

/-- What a call on a sound table does. The table stays sound and only grows, the answer is good if
there is one, and there is none only if the table is full. -/
structure Grows {α : Type} (d : LazyMatcher) (t : LazyTable) (result : Except Failure α × LazyTable)
    (good : α → LazyTable → Prop) : Prop where
  sound : result.2.Sound d
  extension : t.Extends result.2
  ok : ∀ {answer : α}, result.1 = .ok answer → good answer result.2
  full : ∀ {e : Failure}, result.1 = .error e → ∃ limit, e = .full limit

variable {d : LazyMatcher} {t t' : LazyTable}

theorem Grows.of_extends {α : Type} {result : Except Failure α × LazyTable}
    {good : α → LazyTable → Prop} (before : t.Extends t') (h : d.Grows t' result good) :
    d.Grows t result good :=
  ⟨h.sound, before.trans h.extension, h.ok, h.full⟩

theorem grows_error {α : Type} {good : α → LazyTable → Prop} (sound : t.Sound d) (limit : Nat) :
    d.Grows t (.error (.full limit), t) good :=
  ⟨sound, .refl t, by simp, fun e => ⟨limit, (Except.error.inj e).symm⟩⟩

theorem grows_ok {α : Type} {good : α → LazyTable → Prop} (sound : t'.Sound d)
    (grown : t.Extends t') {answer : α} (right : good answer t') :
    d.Grows t (.ok answer, t') good :=
  ⟨sound, grown, fun e => by cases e; exact right, by simp⟩

theorem Grows.of_error {α β : Type} {good : α → LazyTable → Prop} {good' : β → LazyTable → Prop}
    {e : Failure} (h : d.Grows t (.error e, t') good) : d.Grows t (.error e, t') good' :=
  ⟨h.sound, h.extension, by simp, fun e => h.full (by cases e; rfl)⟩

theorem ofPlace_size_iff (sound : t.Sound d) :
    RowId.ofPlace t.cells.size = none ↔ RowId.greatest < t.size := by
  rw [RowId.ofPlace_eq_none_iff, sound.cells_size]
  simp only [RowId.greatest, RowId.greatestPlace]
  omega

/-- The walk for a row comes to its end, so a row is only refused for want of room. -/
theorem addRow_eq (wf : d.automaton.WellFormed) (sound : t.Sound d) {set : List Nat}
    (counts : ∀ a ∈ set, d.automaton.Counts ⟨false, none⟩ a) :
    ∃ (scratch : NodeSet) (stack : Stack) (b : Bool), scratch.Fits d.automaton ∧ stack.left = [] ∧
      (b = true ↔ d.automaton.EndsIn false (· ∈ set)) ∧
      d.addRow t set = match d.rowLimit.filter (· ≤ t.size), RowId.ofPlace t.cells.size with
        | some limit, _ => (.error (.full limit), t)
        | none, none => (.error (.full t.size), t)
        | none, some id =>
          let id := if b then id.toAccepting else id
          (.ok id, { t with scratch, stack }.withRow set id) := by
  have ending : (endWith d.automaton false t.scratch.clear t.stack set).Decides d.automaton _ :=
    endWith_spec wf sound.left_eq sound.scratch.clear Automaton.closed_nothing counts
  unfold addRow
  generalize endWith d.automaton false t.scratch.clear t.stack set = e at ending ⊢
  obtain ⟨b, accepted, accepting⟩ := ending.accepted
  refine ⟨e.scratch, e.stack, b, ending.fits, ending.left_eq, ?_, ?_⟩
  · rw [accepting, false_or]
    rfl
  · simp only [accepted]
    cases d.rowLimit.filter (· ≤ t.size) with
    | some limit => rfl
    | none => cases RowId.ofPlace t.cells.size <;> rfl

theorem addRow_spec (wf : d.automaton.WellFormed) (sound : t.Sound d) {set : List Nat}
    (new : t.index[set]? = none) (ascending : set.Pairwise (· < ·))
    (counts : ∀ a ∈ set, d.automaton.Counts ⟨false, none⟩ a) :
    d.Grows t (d.addRow t set) fun id t' => t'.Names d.automaton id set := by
  obtain ⟨scratch, stack, b, fits, left_eq, ends, result⟩ := addRow_eq wf sound counts
  rw [result]
  split
  case h_1 limit full => exact grows_error sound limit
  case h_2 => exact grows_error sound t.size
  case h_3 id room made =>
    have roomLimit : ∀ limit, d.rowLimit = some limit → t.size < limit := by
      intro limit limited
      simpa [limited, Option.filter_eq_none_iff] using room
    have numbered : ¬RowId.greatest < t.size := by
      rw [← ofPlace_size_iff sound, made]
      exact Option.some_ne_none id
    have sound' := sound.workspace t.sortSpace left_eq sound.current fits
    have parts := (RowId.parts_ofPlace made).mark b
    have sound'' := sound'.withRow new ascending counts parts ends (Nat.le_of_not_lt numbered) roomLimit
    have same := extends_workspace t t.current scratch stack t.sortSpace
    exact grows_ok sound'' (same.trans (extends_withRow new)) (names_withRow sound' parts ends)

theorem rowOfCurrent_spec (wf : d.automaton.WellFormed) (sound : t.Sound d) {s : Bool}
    {nodes : Nat → Prop} (holds : t.current.Holds d.automaton ⟨s, none⟩ nodes) :
    d.Grows t (d.rowOfCurrent t) fun id t' => ∃ set, t'.Names d.automaton id set ∧
      ∀ a, a ∈ set ↔ nodes a ∧ d.automaton.Counts ⟨false, none⟩ a := by
  have members (a : Nat) : a ∈ t.current.ascending ↔
      nodes a ∧ d.automaton.Counts ⟨false, none⟩ a := by
    rw [NodeSet.mem_ascending, holds.members_iff]
    rfl
  have sound' := sound.workspace (grow t.sortSpace t.current.ascending.length) sound.left_eq
    sound.current sound.scratch
  have same := extends_workspace t t.current t.scratch t.stack
    (grow t.sortSpace t.current.ascending.length)
  unfold rowOfCurrent
  refine Grows.of_extends same ?_
  simp only
  split
  case h_1 id known => exact grows_ok sound' (.refl _) ⟨_, sound'.index_iff.1 known, members⟩
  case h_2 new =>
    have added := addRow_spec wf sound' new (t.current.pairwise_ascending holds.nodup)
      fun a member => ((members a).1 member).2
    exact ⟨added.sound, added.extension, fun e => ⟨_, added.ok e, members⟩, added.full⟩

theorem computeStart_eq (wf : d.automaton.WellFormed) (sound : t.Sound d) :
    ∃ t₁ accepted, t.SameContent t₁ ∧ t₁.Sound d ∧
      t₁.current.Holds d.automaton ⟨true, none⟩
        (d.automaton.Reaches ⟨true, none⟩ d.automaton.start) ∧
      (accepted = true ↔ d.automaton.Accepts []) ∧
      d.computeStart t = match d.rowOfCurrent t₁ with
        | (.error e, t') => (.error e, t')
        | (.ok id, t') => (.ok (id, accepted), { t' with start := some (id, accepted) }) := by
  have walk : (d.automaton.closure ⟨true, none⟩ held t.current.clear t.stack
      d.automaton.start).Covers d.automaton ⟨true, none⟩ _ :=
    (Automaton.closure_spec wf held sound.left_eq sound.current.clear Automaton.closed_nothing
      wf.start_lt).congr fun a => by rw [false_or]
  simp only [computeStart]
  generalize d.automaton.closure ⟨true, none⟩ held t.current.clear t.stack d.automaton.start = w
    at walk ⊢
  have members (a : Nat) : a ∈ w.set.members.toList ↔ d.automaton.Begins a := by
    rw [Array.mem_toList_iff, walk.holds.members_iff]
    rfl
  have ending : (endWith d.automaton true t.scratch.clear w.stack w.set.members.toList).Decides
      d.automaton _ :=
    endWith_spec wf walk.left_eq sound.scratch.clear Automaton.closed_nothing
      fun a member => ((members a).1 member).2
  generalize endWith d.automaton true t.scratch.clear w.stack w.set.members.toList = e
    at ending ⊢
  obtain ⟨b, accepted, answer⟩ := ending.accepted
  have answer' : b = true ↔ d.automaton.Accepts [] := by
    rw [answer, false_or, Automaton.accepts_nil_iff wf]
    simp only [members]
    rfl
  have sound' := sound.workspace t.sortSpace ending.left_eq walk.holds.fits ending.fits
  refine ⟨{ t with current := w.set, scratch := e.scratch, stack := e.stack }, b,
    ⟨rfl, rfl, rfl, rfl⟩, sound', walk.holds, answer', ?_⟩
  rw [if_pos walk.finished]
  cases e
  cases accepted
  rfl

theorem computeStart_spec (wf : d.automaton.WellFormed) (sound : t.Sound d)
    (unknown : t.start = none) :
    d.Grows t (d.computeStart t) fun first t' => t'.start = some first := by
  obtain ⟨t₁, accepted, same, sound', holds, answer, result⟩ := computeStart_eq wf sound
  have found := (rowOfCurrent_spec wf sound' holds).of_extends same.extension
  rw [result]
  generalize d.rowOfCurrent t₁ = result at found ⊢
  obtain ⟨outcome, t'⟩ := result
  cases outcome with
  | error reason => exact found.of_error
  | ok id =>
    obtain ⟨set, names, begins⟩ := found.ok rfl
    exact grows_ok (found.sound.withStart names begins answer)
      (found.extension.withStart unknown _) rfl

theorem start_spec (wf : d.automaton.WellFormed) (sound : t.Sound d) :
    d.Grows t (d.start t) fun first t' => t'.start = some first := by
  unfold start
  split
  case h_1 first known => exact grows_ok sound (.refl t) known
  case h_2 unknown => exact computeStart_spec wf sound unknown

theorem computeNext_eq (wf : d.automaton.WellFormed) (sound : t.Sound d) {id : RowId} {set : List Nat}
    (names : t.Names d.automaton id set) (b : UInt8) :
    ∃ t₁, t.SameContent t₁ ∧ t₁.Sound d ∧
      t₁.current.Holds d.automaton ⟨false, none⟩ (fun a => ∃ x ∈ set,
        ∃ c, d.automaton.Moves b x c ∧ d.automaton.Reaches ⟨false, none⟩ c a) ∧
      d.computeNext t id b = match d.rowOfCurrent t₁ with
        | (.error e, t') => (.error e, t')
        | (.ok next, t') => (.ok next, t'.setCell id b next) := by
  have bounds : ∀ a ∈ set, a < d.automaton.size := by
    intro a member
    obtain ⟨n, isNode, -⟩ := sound.counts names.found a member
    exact (Array.getElem?_eq_some_iff.1 isNode).1
  have walk : (d.automaton.advance (d.automaton.closure ⟨false, none⟩ held) b t.current.clear t.stack
      set).Covers
      d.automaton ⟨false, none⟩ _ :=
    (Automaton.advance_spec wf held b sound.left_eq sound.current.clear Automaton.closed_nothing
      bounds).congr fun a => by rw [false_or]
  simp only [computeNext, names.found]
  generalize d.automaton.advance (d.automaton.closure ⟨false, none⟩ held) b t.current.clear t.stack set =
    w at walk ⊢
  have sound' := sound.workspace t.sortSpace walk.left_eq walk.holds.fits sound.scratch
  refine ⟨{ t with current := w.set, stack := w.stack }, ⟨rfl, rfl, rfl, rfl⟩, sound', walk.holds, ?_⟩
  exact if_pos walk.finished

theorem computeNext_spec (wf : d.automaton.WellFormed) (sound : t.Sound d) {id : RowId}
    {set : List Nat} (names : t.Names d.automaton id set) {b : UInt8} {old : RowId}
    (was : t.cell? id b = some old) (unknown : old.isUnknown = true) :
    d.Grows t (d.computeNext t id b) fun next t' => ∃ set', t'.Names d.automaton next set' ∧
      ∀ a, a ∈ set' ↔ d.automaton.Follows (· ∈ set) b a := by
  obtain ⟨t₁, same, sound', holds, result⟩ := computeNext_eq wf sound names b
  have found := (rowOfCurrent_spec wf sound' holds).of_extends same.extension
  rw [result]
  generalize d.rowOfCurrent t₁ = result at found ⊢
  obtain ⟨outcome, t'⟩ := result
  cases outcome with
  | error reason => exact found.of_error
  | ok next =>
    obtain ⟨set', names', follows⟩ := found.ok rfl
    have later := sound.row_ne_zero names was unknown
    exact grows_ok (found.sound.setCell (names.extend found.extension) later names' follows)
      (found.extension.setCell was unknown) ⟨set', names_setCell_iff.2 names', follows⟩

theorem next_spec (wf : d.automaton.WellFormed) (sound : t.Sound d) {id : RowId} {set : List Nat}
    (names : t.Names d.automaton id set) (b : UInt8) :
    d.Grows t (d.next t id b) fun next t' => ∃ set', t'.Names d.automaton next set' ∧
      ∀ a, a ∈ set' ↔ d.automaton.Follows (· ∈ set) b a := by
  obtain ⟨next, known⟩ := sound.cell?_of_names names b
  simp only [LazyMatcher.next, known]
  split
  case isTrue unknown => exact computeNext_spec wf sound names known unknown
  case isFalse certain =>
    exact grows_ok sound (.refl t) (sound.names_of_cell? names known (Bool.eq_false_iff.2 certain))

end LazyMatcher

end ByteRegex
