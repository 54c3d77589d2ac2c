import ByteRegex.Proofs.Sessions

/-! What calls add to a table. A call that gives a row adds no row but this one, a search that comes to an
answer adds none but those of the beginnings of its haystack, and all cells that it needed are known then.
So a search that was made before finds all it needs. -/

namespace ByteRegex

open LazyTable

namespace LazyTable

variable {t t' : LazyTable} {d : LazyMatcher} {m : Automaton} {id : RowId} {set : List Nat}
  {word haystack : List UInt8} {b : UInt8}

def Has (t : LazyTable) (set : List Nat) : Prop :=
  ∃ k : Nat, t.sets[k]? = some set

def Leads (t : LazyTable) (id : RowId) (b : UInt8) (next : RowId) : Prop :=
  t.cell? id b = some next ∧ next.isUnknown = false

/-- All cells are filled in that a run needs to read the bytes. -/
def Known (t : LazyTable) : RowId → List UInt8 → Prop
  | _, [] => True
  | id, b :: bytes => ∃ next, t.Leads id b next ∧ (next.dead = true ∨ t.Known next bytes)

/-- All that a search for a haystack needs is filled in. -/
def Traced (t : LazyTable) (haystack : List UInt8) : Prop :=
  ∃ first accepted, t.start = some (first, accepted) ∧ t.Known first haystack

theorem Names.has (h : t.Names m id set) : t.Has set :=
  ⟨id.row, h.found⟩

theorem Leads.extend {next : RowId} (h : t.Leads id b next) (grown : t.Extends t') :
    t'.Leads id b next :=
  ⟨grown.cells h.1 h.2, h.2⟩

theorem Known.extend {bytes : List UInt8} (h : t.Known id bytes) (grown : t.Extends t') :
    t'.Known id bytes := by
  induction bytes generalizing id with
  | nil => trivial
  | cons b bytes ih =>
    obtain ⟨next, leads, dead | rest⟩ := h
    · exact ⟨next, leads.extend grown, .inl dead⟩
    · exact ⟨next, leads.extend grown, .inr (ih rest)⟩

theorem Traced.extend (h : t.Traced haystack) (grown : t.Extends t') : t'.Traced haystack := by
  obtain ⟨first, accepted, started, known⟩ := h
  exact ⟨first, accepted, grown.start started, known.extend grown⟩

theorem Known.of_beginning {part bytes : List UInt8} (h : t.Known id bytes) (beginning : part <+: bytes) :
    t.Known id part := by
  induction part generalizing id bytes with
  | nil => trivial
  | cons b part ih =>
    cases bytes with
    | nil => cases List.eq_nil_of_prefix_nil beginning
    | cons c bytes =>
      obtain ⟨rfl, rest⟩ := List.cons_prefix_cons.1 beginning
      obtain ⟨next, leads, dead | known⟩ := h
      · exact ⟨next, leads, .inl dead⟩
      · exact ⟨next, leads, .inr (ih known rest)⟩

theorem Traced.of_beginning {part : List UInt8} (h : t.Traced haystack) (beginning : part <+: haystack) :
    t.Traced part := by
  obtain ⟨first, accepted, started, known⟩ := h
  exact ⟨first, accepted, started, known.of_beginning beginning⟩

theorem Sound.tracks_of_leads (h : t.Sound d) (tracks : t.Tracks d.automaton id word) {next : RowId}
    (leads : t.Leads id b next) : t.Tracks d.automaton next (word ++ [b]) := by
  obtain ⟨set, names, members⟩ := tracks
  obtain ⟨set', names', follows⟩ := h.names_of_cell? names leads.1 leads.2
  have same : (fun a => a ∈ set) = d.automaton.Subset word := funext fun a => propext (members a)
  refine ⟨set', names', fun a => ?_⟩
  rw [follows, same, Automaton.subset_concat]

theorem Sound.has_of_known (h : t.Sound d) (tracks : t.Tracks d.automaton id word)
    {bytes part : List UInt8} (known : t.Known id bytes) (beginning : part <+: bytes)
    (some : ∃ a, d.automaton.Subset (word ++ part) a) :
    ∃ set, t.Has set ∧ ∀ a, a ∈ set ↔ d.automaton.Subset (word ++ part) a := by
  induction part generalizing id word bytes with
  | nil =>
    rw [List.append_nil]
    obtain ⟨set, names, members⟩ := tracks
    exact ⟨set, names.has, members⟩
  | cons b part ih =>
    cases bytes with
    | nil => cases List.eq_nil_of_prefix_nil beginning
    | cons c bytes =>
      obtain ⟨rfl, rest⟩ := List.cons_prefix_cons.1 beginning
      have parts : word ++ b :: part = word ++ [b] ++ part := by simp
      rw [parts] at some ⊢
      obtain ⟨next, leads, dead | known'⟩ := known
      -- nothing follows the empty set
      · obtain ⟨a, inside⟩ := some
        have none := h.subset_of_dead (h.tracks_of_leads tracks leads) dead
        exact absurd inside (Automaton.not_subset_append none part a)
      · exact ih (h.tracks_of_leads tracks leads) known' rest some

theorem Sound.has_of_traced (h : t.Sound d) (traced : t.Traced haystack) {part : List UInt8}
    (beginning : part <+: haystack) (some : ∃ a, d.automaton.Subset part a) :
    ∃ set, t.Has set ∧ ∀ a, a ∈ set ↔ d.automaton.Subset part a := by
  obtain ⟨first, accepted, started, known⟩ := traced
  exact h.has_of_known (h.tracks_start started) known beginning some

/-- A table has no rows beyond those of another, or at one more place. -/
def AddsOnly (t t' : LazyTable) (k : Nat) : Prop :=
  ∀ (j : Nat) (set : List Nat), t'.sets[j]? = some set → j = k ∨ t.sets[j]? = some set

theorem AddsOnly.has (h : t.AddsOnly t' id.row) (names : t'.Names m id set) {other : List Nat}
    (has : t'.Has other) : t.Has other ∨ other = set := by
  obtain ⟨j, found⟩ := has
  obtain rfl | old := h j other found
  · rw [names.found, Option.some.injEq] at found
    exact .inr found.symm
  · exact .inl ⟨j, old⟩

theorem addsOnly_of_sets (same : t'.sets = t.sets) (k : Nat) : t.AddsOnly t' k :=
  fun _ _ found => .inr (same ▸ found)

end LazyTable

namespace LazyMatcher

variable {d : LazyMatcher} {t t' : LazyTable} {id : RowId} {word bytes haystack : List UInt8} {b : UInt8}

theorem addRow_adds (sound : t.Sound d) {set : List Nat} (h : d.addRow t set = (.ok id, t')) :
    t.AddsOnly t' id.row := by
  unfold addRow at h
  split at h
  case h_1 => cases h
  case h_2 =>
    split at h
    case h_1 => cases h
    case h_2 name made =>
      simp only at h
      split at h
      case h_1 => cases h
      case h_2 accepting _ =>
        cases h
        have parts := (RowId.parts_ofPlace made).mark accepting
        rw [sound.cells_size] at parts
        intro j other found
        rw [sets_withRow] at found
        split at found
        case isTrue last => exact .inl (last.trans parts.row_eq.symm)
        case isFalse => exact .inr found

theorem rowOfCurrent_adds (sound : t.Sound d) (h : d.rowOfCurrent t = (.ok id, t')) :
    t.AddsOnly t' id.row := by
  unfold rowOfCurrent at h
  simp only at h
  split at h
  case h_1 =>
    cases h
    exact addsOnly_of_sets rfl _
  case h_2 =>
    have sound' := sound.workspace (grow t.sortSpace t.current.ascending.length) sound.left_eq
      sound.current sound.scratch
    have adds := addRow_adds sound' h
    exact adds

theorem computeStart_adds (wf : d.automaton.WellFormed) (sound : t.Sound d) {accepted : Bool}
    (h : d.computeStart t = (.ok (id, accepted), t')) : t.AddsOnly t' id.row := by
  obtain ⟨t₁, answer, same, sound', -, -, result⟩ := computeStart_eq wf sound
  rw [result] at h
  split at h
  case h_1 => cases h
  case h_2 name t₂ found =>
    cases h
    intro j other row
    rw [← same.sets_eq]
    exact rowOfCurrent_adds sound' found j other row

theorem computeNext_adds (wf : d.automaton.WellFormed) (sound : t.Sound d) {set : List Nat}
    {source next : RowId} (names : t.Names d.automaton source set)
    (h : d.computeNext t source b = (.ok next, t')) :
    t.AddsOnly t' next.row ∧ t'.cell? source b = some next := by
  obtain ⟨t₁, same, sound', holds, result⟩ := computeNext_eq wf sound names b
  have grows := rowOfCurrent_spec wf sound' holds
  rw [result] at h
  split at h
  case h_1 => cases h
  case h_2 name t₂ found =>
    cases h
    rw [found] at grows
    constructor
    · intro j other row
      rw [← same.sets_eq]
      exact rowOfCurrent_adds sound' found j other row
    · obtain ⟨old, was⟩ := grows.sound.cell?_of_names
        ((names.extend same.extension).extend grows.extension) b
      exact cell?_setCell was

theorem start_content (wf : d.automaton.WellFormed) (sound : t.Sound d) {first : RowId × Bool}
    (h : d.start t = (.ok first, t')) : t'.start = some first ∧
      ∀ set, t'.Has set → t.Has set ∨ ∀ a, a ∈ set ↔ d.automaton.Subset [] a := by
  obtain ⟨id, accepted⟩ := first
  have grows := start_spec wf sound
  rw [h] at grows
  have started := grows.ok rfl
  refine ⟨started, fun set has => ?_⟩
  obtain ⟨set', names, begins⟩ := (grows.sound.start started).1
  unfold start at h
  split at h
  case h_1 =>
    cases h
    exact .inl has
  case h_2 =>
    obtain old | rfl := (computeStart_adds wf sound h).has names has
    · exact .inl old
    · exact .inr begins

theorem next_content (wf : d.automaton.WellFormed) (sound : t.Sound d)
    (tracks : t.Tracks d.automaton id word) {next : RowId} (h : d.next t id b = (.ok next, t')) :
    t'.Leads id b next ∧
      ∀ set, t'.Has set → t.Has set ∨ ∀ a, a ∈ set ↔ d.automaton.Subset (word ++ [b]) a := by
  have grows := next_tracks wf sound tracks b
  rw [h] at grows
  obtain ⟨set', names', members⟩ := grows.ok rfl
  obtain ⟨set, names, -⟩ := tracks
  obtain ⟨old, was⟩ := sound.cell?_of_names names b
  simp only [LazyMatcher.next, was] at h
  split at h
  case isTrue =>
    obtain ⟨adds, fills⟩ := computeNext_adds wf sound names h
    refine ⟨⟨fills, names'.unknown_eq⟩, fun set has => ?_⟩
    obtain old | rfl := adds.has names' has
    · exact .inl old
    · exact .inr members
  case isFalse known =>
    cases h
    exact ⟨⟨was, Bool.eq_false_iff.2 known⟩, fun set has => .inl has⟩

theorem run_content (wf : d.automaton.WellFormed) (sound : t.Sound d)
    (tracks : t.Tracks d.automaton id word) {answer : Bool} (h : d.run t id bytes = (.ok answer, t')) :
    t.Extends t' ∧ t'.Known id bytes ∧ ∀ set, t'.Has set → t.Has set ∨
      ∃ part, part <+: bytes ∧ ∀ a, a ∈ set ↔ d.automaton.Subset (word ++ part) a := by
  induction bytes generalizing t id word with
  | nil =>
    cases h
    exact ⟨.refl _, trivial, fun set has => .inl has⟩
  | cons b bytes ih =>
    have grows := next_tracks wf sound tracks b
    rw [run] at h
    cases stepped : d.next t id b with
    | mk outcome t₁ =>
      rw [stepped] at h grows
      cases outcome with
      | error reason => cases h
      | ok next =>
        obtain ⟨leads, adds⟩ := next_content wf sound tracks stepped
        -- a row of the first step is that of one byte
        have first {set : List Nat} (has : t₁.Has set) : t.Has set ∨
            ∃ part, part <+: b :: bytes ∧ ∀ a, a ∈ set ↔ d.automaton.Subset (word ++ part) a := by
          obtain old | new := adds set has
          · exact .inl old
          · exact .inr ⟨[b], List.cons_prefix_cons.2 ⟨rfl, List.nil_prefix⟩, new⟩
        simp only at h
        split at h
        case isTrue dead =>
          cases h
          exact ⟨grows.extension, ⟨next, leads, .inl dead⟩, fun set has => first has⟩
        case isFalse =>
          obtain ⟨grown, known, rest⟩ := ih grows.sound (grows.ok rfl) h
          refine ⟨grows.extension.trans grown, ⟨next, leads.extend grown, .inr known⟩, fun set has => ?_⟩
          obtain old | ⟨part, beginning, new⟩ := rest set has
          · exact first old
          · refine .inr ⟨b :: part, List.cons_prefix_cons.2 ⟨rfl, beginning⟩, ?_⟩
            rwa [List.append_assoc] at new

/-- A search that comes to an answer leaves behind all that it needs, and adds no rows but those of the
beginnings of the haystack. -/
theorem search_content (wf : d.automaton.WellFormed) (sound : t.Sound d) {answer : Bool}
    (h : d.search t haystack = (.ok answer, t')) : t'.Traced haystack ∧
      ∀ set, t'.Has set → t.Has set ∨
        ∃ part, part <+: haystack ∧ ∀ a, a ∈ set ↔ d.automaton.Subset part a := by
  have grows := start_spec wf sound
  unfold search at h
  cases begun : d.start t with
  | mk outcome t₁ =>
    rw [begun] at h grows
    cases outcome with
    | error reason => cases h
    | ok first =>
      obtain ⟨id, accepted⟩ := first
      obtain ⟨started, adds⟩ := start_content wf sound begun
      have first {set : List Nat} (has : t₁.Has set) : t.Has set ∨
          ∃ part, part <+: haystack ∧ ∀ a, a ∈ set ↔ d.automaton.Subset part a := by
        obtain old | new := adds set has
        · exact .inl old
        · exact .inr ⟨[], List.nil_prefix, new⟩
      simp only at h
      split at h
      case isTrue empty =>
        cases h
        obtain rfl := List.isEmpty_iff.1 empty
        exact ⟨⟨id, _, started, trivial⟩, fun set has => first has⟩
      case isFalse =>
        -- rows of the run are those of beginnings with at least one byte
        obtain ⟨grown, known, rest⟩ :=
          run_content wf grows.sound (grows.sound.tracks_start started) h
        refine ⟨⟨id, accepted, grown.start started, known⟩, fun set has => ?_⟩
        obtain old | new := rest set has
        · exact first old
        · exact .inr new

theorem run_of_known (h : t.Known id bytes) : ∃ answer, d.run t id bytes = (.ok answer, t) := by
  induction bytes generalizing id with
  | nil => exact ⟨id.accepting, rfl⟩
  | cons b bytes ih =>
    obtain ⟨next, ⟨cell, known⟩, rest⟩ := h
    have step : d.next t id b = (.ok next, t) := by simp [LazyMatcher.next, cell, known]
    rw [run, step]
    simp only
    split
    case isTrue => exact ⟨false, rfl⟩
    case isFalse alive =>
      obtain dead | known := rest
      · exact absurd dead alive
      · exact ih known

theorem search_of_traced (h : t.Traced haystack) : ∃ answer, d.search t haystack = (.ok answer, t) := by
  obtain ⟨first, accepted, started, known⟩ := h
  have begun : d.start t = (.ok (first, accepted), t) := by simp [start, started]
  rw [search, begun]
  simp only
  split
  case isTrue => exact ⟨accepted, rfl⟩
  case isFalse => exact run_of_known known

end LazyMatcher

end ByteRegex
