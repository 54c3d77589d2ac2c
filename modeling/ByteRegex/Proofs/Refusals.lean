import ByteRegex.Proofs.Content

/-! When a call on a table fails, and what it leaves behind. A call fails exactly if it needs a row that is
not there and the table is full, and then it changes nothing. So a search that fails keeps what its steps
before have filled in, and a search that came to an answer comes to the same answer again. -/

namespace ByteRegex

open LazyTable

namespace LazyTable

variable {t t' t'' : LazyTable} {d : LazyMatcher} {nodes : Nat → Prop} {set : List Nat}

theorem SameContent.refl (t : LazyTable) : t.SameContent t :=
  ⟨rfl, rfl, rfl, rfl⟩

theorem SameContent.trans (h : t.SameContent t') (h' : t'.SameContent t'') : t.SameContent t'' :=
  ⟨h'.cells_eq.trans h.cells_eq, h'.sets_eq.trans h.sets_eq, h'.index_eq.trans h.index_eq,
    h'.start_eq.trans h.start_eq⟩

def HasRowOf (t : LazyTable) (nodes : Nat → Prop) : Prop :=
  ∃ set, t.Has set ∧ ∀ a, a ∈ set ↔ nodes a

theorem SameContent.hasRowOf_iff (h : t.SameContent t') : t'.HasRowOf nodes ↔ t.HasRowOf nodes := by
  simp only [HasRowOf, Has, h.sets_eq]

theorem Sound.hasRowOf_iff (h : t.Sound d) (ascending : set.Pairwise (· < ·))
    (members : ∀ a, a ∈ set ↔ nodes a) : t.HasRowOf nodes ↔ t.index[set]? ≠ none := by
  constructor
  · rintro ⟨other, ⟨k, found⟩, members'⟩
    obtain ⟨id, -, names⟩ := h.exists_names found
    have equal : other = set := (h.ascending found).eq_of_mem_iff ascending
      fun a => by rw [members', members]
    rw [← equal, h.index_iff.2 names]
    exact Option.some_ne_none id
  · intro known
    obtain ⟨id, known⟩ := Option.ne_none_iff_exists'.1 known
    exact ⟨set, (h.index_iff.1 known).has, members⟩

end LazyTable

namespace LazyMatcher

/-- Whether no row can be added: the table has all the rows that it may have, or all that have a number. -/
def Full (d : LazyMatcher) (t : LazyTable) : Prop :=
  (∃ limit, d.rowLimit = some limit ∧ limit ≤ t.size) ∨ RowId.greatest + 1 ≤ t.size

/-- A call fails exactly if it needs a row that is not there and the table is full. A call that fails says
that the table is full, and changes nothing. -/
structure FailsWhenFull {α : Type} (d : LazyMatcher) (t : LazyTable)
    (result : Except Failure α × LazyTable) (needs : Prop) : Prop where
  error_iff : (∃ e, result.1 = .error e) ↔ needs ∧ d.Full t
  full : ∀ {e : Failure}, result.1 = .error e → ∃ limit, e = .full limit
  kept : ∀ {e : Failure}, result.1 = .error e → t.SameContent result.2

variable {α β : Type} {d : LazyMatcher} {t t' t'' : LazyTable} {needs needs' : Prop}

theorem failsWhenFull_error {limit : Nat} (needed : needs) (full : d.Full t) :
    d.FailsWhenFull t ((.error (.full limit), t) : Except Failure α × LazyTable) needs :=
  ⟨⟨fun _ => ⟨needed, full⟩, fun _ => ⟨_, rfl⟩⟩, fun e => ⟨limit, (Except.error.inj e).symm⟩,
    fun _ => .refl t⟩

theorem failsWhenFull_ok {answer : α} (room : ¬(needs ∧ d.Full t)) :
    d.FailsWhenFull t ((.ok answer, t') : Except Failure α × LazyTable) needs :=
  ⟨⟨fun ⟨_, failed⟩ => (nomatch failed), fun full => absurd full room⟩, (nomatch ·), (nomatch ·)⟩

theorem FailsWhenFull.of_same {result : Except Failure α × LazyTable} (same : t.SameContent t')
    (h : d.FailsWhenFull t' result needs) : d.FailsWhenFull t result needs := by
  have size : t'.size = t.size := congrArg Array.size same.sets_eq
  refine ⟨?_, h.full, fun failed => same.trans (h.kept failed)⟩
  rw [h.error_iff, Full, size, Full]

theorem FailsWhenFull.congr {result : Except Failure α × LazyTable} (h : d.FailsWhenFull t result needs)
    (same : needs ↔ needs') : d.FailsWhenFull t result needs' :=
  ⟨h.error_iff.trans (and_congr_left fun _ => same), h.full, h.kept⟩

theorem FailsWhenFull.of_error {e : Failure}
    (h : d.FailsWhenFull t ((.error e, t') : Except Failure α × LazyTable) needs) :
    d.FailsWhenFull t ((.error e, t') : Except Failure β × LazyTable) needs := by
  have failed := h.error_iff.1 ⟨e, rfl⟩
  exact ⟨⟨fun _ => failed, fun _ => ⟨e, rfl⟩⟩, fun e => h.full (by cases e; rfl),
    fun e => h.kept (by cases e; rfl)⟩

theorem FailsWhenFull.of_ok {answer : α} {answer' : β}
    (h : d.FailsWhenFull t ((.ok answer, t') : Except Failure α × LazyTable) needs) :
    d.FailsWhenFull t ((.ok answer', t'') : Except Failure β × LazyTable) needs :=
  failsWhenFull_ok fun full => by
    obtain ⟨e, failed⟩ := h.error_iff.2 full
    cases failed

theorem addRow_fails (wf : d.automaton.WellFormed) (sound : t.Sound d) {set : List Nat}
    (counts : ∀ a ∈ set, d.automaton.Counts ⟨false, none⟩ a) :
    d.FailsWhenFull t (d.addRow t set) True := by
  obtain ⟨scratch, stack, b, -, -, -, result⟩ := addRow_eq wf sound counts
  rw [result]
  split
  case h_1 limit full =>
    obtain ⟨limited, reached⟩ := Option.filter_eq_some_iff.1 full
    exact failsWhenFull_error trivial (.inl ⟨limit, limited, of_decide_eq_true reached⟩)
  case h_2 more => exact failsWhenFull_error trivial (.inr ((ofPlace_size_iff sound).1 more))
  case h_3 id room made =>
    refine failsWhenFull_ok ?_
    rintro ⟨-, ⟨limit, limited, reached⟩ | more⟩
    · rw [limited, Option.filter_eq_none_iff] at room
      exact room limit rfl (decide_eq_true reached)
    · rw [Nat.add_one_le_iff, ← ofPlace_size_iff sound, made] at more
      cases more

theorem rowOfCurrent_fails (wf : d.automaton.WellFormed) (sound : t.Sound d) {s : Bool}
    {nodes : Nat → Prop} (holds : t.current.Holds d.automaton ⟨s, none⟩ nodes) :
    d.FailsWhenFull t (d.rowOfCurrent t)
      ¬t.HasRowOf fun a => nodes a ∧ d.automaton.Counts ⟨false, none⟩ a := by
  have members (a : Nat) : a ∈ t.current.ascending ↔
      nodes a ∧ d.automaton.Counts ⟨false, none⟩ a := by
    rw [NodeSet.mem_ascending, holds.members_iff]
    rfl
  have ascending := t.current.pairwise_ascending holds.nodup
  have known := sound.hasRowOf_iff ascending members
  unfold rowOfCurrent
  simp only
  split
  case h_1 id found =>
    refine failsWhenFull_ok fun needed => needed.1 ?_
    rw [known, show t.index[t.current.ascending]? = some id from found]
    exact Option.some_ne_none id
  case h_2 new =>
    have sound' := sound.workspace (grow t.sortSpace t.current.ascending.length) sound.left_eq
      sound.current sound.scratch
    have added := addRow_fails wf sound' fun a member => ((members a).1 member).2
    have same : t.SameContent { t with sortSpace := grow t.sortSpace t.current.ascending.length } :=
      ⟨rfl, rfl, rfl, rfl⟩
    refine (added.of_same same).congr (iff_of_true trivial ?_)
    rw [known, not_not]
    exact new

theorem start_fails (wf : d.automaton.WellFormed) (sound : t.Sound d) :
    d.FailsWhenFull t (d.start t) (t.start = none ∧ ¬t.HasRowOf d.automaton.Begins) := by
  unfold start
  split
  case h_1 first known => exact failsWhenFull_ok fun full => by cases known.symm.trans full.1.1
  case h_2 unknown =>
    obtain ⟨t₁, accepted, same, sound', holds, -, result⟩ := computeStart_eq wf sound
    have found := (rowOfCurrent_fails wf sound' holds).of_same same
    have needs : ¬t₁.HasRowOf d.automaton.Begins ↔
        t.start = none ∧ ¬t.HasRowOf d.automaton.Begins := by
      rw [same.hasRowOf_iff, and_iff_right unknown]
    refine FailsWhenFull.congr ?_ needs
    rw [result]
    generalize d.rowOfCurrent t₁ = result at found ⊢
    obtain ⟨outcome, t'⟩ := result
    cases outcome with
    | error reason => exact found.of_error
    | ok id => exact found.of_ok

theorem next_fails (wf : d.automaton.WellFormed) (sound : t.Sound d) {id : RowId} {set : List Nat}
    (names : t.Names d.automaton id set) (b : UInt8) :
    d.FailsWhenFull t (d.next t id b)
      ((∀ next, ¬t.Leads id b next) ∧ ¬t.HasRowOf (d.automaton.Follows (· ∈ set) b)) := by
  obtain ⟨old, was⟩ := sound.cell?_of_names names b
  simp only [next, was]
  split
  case isFalse known => exact failsWhenFull_ok fun full => full.1.1 old ⟨was, Bool.eq_false_iff.2 known⟩
  case isTrue unknown =>
    obtain ⟨t₁, same, sound', holds, result⟩ := computeNext_eq wf sound names b
    have fails := (rowOfCurrent_fails wf sound' holds).of_same same
    have blank : ∀ next, ¬t.Leads id b next := by
      rintro next ⟨known, certain⟩
      cases was.symm.trans known
      cases unknown.symm.trans certain
    have needs : ¬t₁.HasRowOf (d.automaton.Follows (· ∈ set) b) ↔
        (∀ next, ¬t.Leads id b next) ∧ ¬t.HasRowOf (d.automaton.Follows (· ∈ set) b) := by
      rw [same.hasRowOf_iff, and_iff_right blank]
    refine FailsWhenFull.congr ?_ needs
    rw [result]
    generalize d.rowOfCurrent t₁ = result at fails ⊢
    obtain ⟨outcome, t'⟩ := result
    cases outcome with
    | error reason => exact fails.of_error
    | ok id' => exact fails.of_ok

def steps (d : LazyMatcher) (t : LazyTable) (id : RowId) :
    List UInt8 → Except Failure RowId × LazyTable
  | [] => (.ok id, t)
  | b :: bytes =>
    match d.next t id b with
    | (.error e, t) => (.error e, t)
    | (.ok id, t) => d.steps t id bytes

/-- How a search fails. Either the first row cannot be had, or the steps up to some byte are made and the
step for this byte fails. The table keeps what it held when the failing call began. -/
inductive Interrupted (d : LazyMatcher) (t : LazyTable) (haystack : List UInt8) (e : Failure) :
    LazyTable → Prop
  | atStart {t' : LazyTable} (failed : d.start t = (.error e, t')) (kept : t.SameContent t') :
      Interrupted d t haystack e t'
  | atByte {t₀ t₁ t' : LazyTable} {first id : RowId} {accepted : Bool} {part rest : List UInt8}
      {b : UInt8} (parts : haystack = part ++ b :: rest) (begun : d.start t = (.ok (first, accepted), t₀))
      (read : d.steps t₀ first part = (.ok id, t₁)) (failed : d.next t₁ id b = (.error e, t'))
      (kept : t₁.SameContent t') : Interrupted d t haystack e t'

variable {id : RowId} {word bytes haystack : List UInt8} {e : Failure}

theorem steps_tracks (wf : d.automaton.WellFormed) (sound : t.Sound d)
    (tracks : t.Tracks d.automaton id word) (bytes : List UInt8) :
    d.Grows t (d.steps t id bytes) fun id' t' => t'.Tracks d.automaton id' (word ++ bytes) := by
  induction bytes generalizing t id word with
  | nil =>
    rw [List.append_nil]
    exact grows_ok sound (.refl t) tracks
  | cons b bytes ih =>
    have next := next_tracks wf sound tracks b
    simp only [steps]
    generalize d.next t id b = result at next ⊢
    obtain ⟨outcome, t'⟩ := result
    cases outcome with
    | error reason => exact next.of_error
    | ok id' =>
      have rest := ih next.sound (next.ok rfl)
      rw [List.append_assoc] at rest
      exact Grows.of_extends next.extension rest

/-- A run fails in one of its steps. -/
theorem exists_of_run (h : d.run t id bytes = (.error e, t')) : ∃ part b rest id' t₁,
    bytes = part ++ b :: rest ∧ d.steps t id part = (.ok id', t₁) ∧ d.next t₁ id' b = (.error e, t') := by
  induction bytes generalizing t id with
  | nil => cases h
  | cons b bytes ih =>
    rw [run] at h
    cases stepped : d.next t id b with
    | mk outcome t₂ =>
      rw [stepped] at h
      cases outcome with
      | error reason =>
        cases h
        exact ⟨[], b, bytes, id, t, rfl, rfl, stepped⟩
      | ok next =>
        simp only at h
        split at h
        case isTrue => cases h
        case isFalse =>
          obtain ⟨part, c, rest, id', t₁, parts, read, failed⟩ := ih h
          refine ⟨b :: part, c, rest, id', t₁, by rw [parts, List.cons_append], ?_, failed⟩
          rw [steps, stepped]
          exact read

theorem interrupted_of_search (wf : d.automaton.WellFormed) (sound : t.Sound d)
    (h : d.search t haystack = (.error e, t')) : d.Interrupted t haystack e t' := by
  have fails := start_fails wf sound
  have grows := start_spec wf sound
  unfold search at h
  cases begun : d.start t with
  | mk outcome t₀ =>
    rw [begun] at h fails grows
    cases outcome with
    | error reason =>
      cases h
      exact .atStart begun (fails.kept rfl)
    | ok first =>
      obtain ⟨first, accepted⟩ := first
      simp only at h
      split at h
      case isTrue => cases h
      case isFalse =>
        -- the steps before the failing one keep the table sound
        obtain ⟨part, b, rest, id, t₁, parts, read, failed⟩ := exists_of_run h
        have reached := steps_tracks wf grows.sound (grows.sound.tracks_start (grows.ok rfl)) part
        rw [read] at reached
        obtain ⟨set, names, -⟩ := reached.ok rfl
        have fails := next_fails wf reached.sound names b
        rw [failed] at fails
        exact .atByte parts begun read failed (fails.kept rfl)

namespace Session

theorem performs_spec (wf : d.automaton.WellFormed) {s : Session} (h : s.Sound d) {calls : List Call}
    (goOn : ∀ call ∈ calls, call ≠ .reset) :
    (calls.foldl (perform d) s).Sound d ∧ s.table.Extends (calls.foldl (perform d) s).table := by
  induction calls generalizing s with
  | nil => exact ⟨h, .refl _⟩
  | cons call calls ih =>
    obtain ⟨sound, grown⟩ := perform_spec wf h (goOn call (List.mem_cons_self ..))
    obtain ⟨sound', grown'⟩ := ih sound fun other later => goOn other (List.mem_cons_of_mem call later)
    exact ⟨sound', grown.trans grown'⟩

/-- What failures mean to a session. They come from a full table alone, they leave it as it is, and no
answer that was given once is lost until a reset. -/
structure FailsSafely (d : LazyMatcher) (s : Session) : Prop where
  start : d.FailsWhenFull s.table (d.start s.table)
    (s.table.start = none ∧ ¬s.table.HasRowOf d.automaton.Begins)
  next : ∀ entry ∈ s.handed, ∀ b, d.FailsWhenFull s.table (d.next s.table entry.2 b)
    ((∀ next, ¬s.table.Leads entry.2 b next) ∧
      ¬s.table.HasRowOf (d.automaton.Subset (entry.1 ++ [b])))
  search : ∀ haystack e, (d.search s.table haystack).1 = .error e →
    (∃ limit, e = .full limit) ∧ d.Interrupted s.table haystack e (d.search s.table haystack).2
  size_le : ∀ limit, d.rowLimit = some limit → s.table.size ≤ max 1 limit
  again : ∀ haystack answer, (d.search s.table haystack).1 = .ok answer →
    ∀ more : List Call, (∀ call ∈ more, call ≠ .reset) →
      d.search (more.foldl (perform d) (perform d s (.search haystack))).table haystack =
        (.ok answer, (more.foldl (perform d) (perform d s (.search haystack))).table)

theorem search_again (wf : d.automaton.WellFormed) {s : Session} (h : s.Sound d) {answer : Bool}
    (found : (d.search s.table haystack).1 = .ok answer) {more : List Call}
    (goOn : ∀ call ∈ more, call ≠ .reset) :
    d.search (more.foldl (perform d) (perform d s (.search haystack))).table haystack =
      (.ok answer, (more.foldl (perform d) (perform d s (.search haystack))).table) := by
  have result : d.search s.table haystack = (.ok answer, (d.search s.table haystack).2) :=
    Prod.ext found rfl
  obtain ⟨traced, -⟩ := search_content wf h.table result
  obtain ⟨later, grown⟩ := performs_spec wf (perform_sound wf h (.search haystack)) goOn
  obtain ⟨answer', result'⟩ := search_of_traced (d := d) (traced.extend grown)
  have right := (search_spec wf h.table haystack).ok found
  have right' := (search_spec wf later.table haystack).ok (congrArg Prod.fst result')
  have same : answer = answer' := Bool.eq_iff_iff.2 (right.trans right'.symm)
  rw [result', same]

/-- In every session, calls fail only when the table is full, and failures do no harm. -/
theorem fails_safely {m : Automaton} (built : m.Built) (rowLimit : Option Nat) (calls : List Call) :
    FailsSafely ⟨m, rowLimit⟩ (after ⟨m, rowLimit⟩ calls) := by
  have wf := built.wellFormed
  have session := sound_after (d := ⟨m, rowLimit⟩) wf calls
  refine ⟨start_fails wf session.table, ?_, ?_, fun limit => session.table.size_le_limit, ?_⟩
  · intro entry given b
    obtain ⟨set, names, members⟩ := session.handed entry given
    have same : (fun a => a ∈ set) = m.Subset entry.1 := funext fun a => propext (members a)
    have fails := next_fails wf session.table names b
    rwa [same, ← Automaton.subset_concat] at fails
  · intro haystack e failed
    exact ⟨(search_spec wf session.table haystack).full failed,
      interrupted_of_search wf session.table (Prod.ext failed rfl)⟩
  · intro haystack answer found more goOn
    exact search_again wf session found goOn

theorem fails_safely_of_letters : ∃ (d : LazyMatcher) (s : Session), d.automaton.Built ∧
    s = after d [.start, .search [0x62]] ∧ FailsSafely d s ∧
    (d.search s.table [0x61]).1 = .error (.full 2) ∧
    d.Interrupted s.table [0x61] (.full 2) (d.search s.table [0x61]).2 ∧
    (d.search s.table [0x62]).1 = .ok false ∧
    (d.search (perform d (perform d s (.search [0x62])) (.search [0x61])).table [0x62]).1 =
      .ok false := by
  have compiles : (Construction.ofPattern {} "ab").toOption.any (fun m => decide
      ((LazyMatcher.search ⟨m, some 2⟩ (after ⟨m, some 2⟩ [.start, .search [0x62]]).table
        [0x61]).1 = .error (.full 2) ∧
      (LazyMatcher.search ⟨m, some 2⟩ (after ⟨m, some 2⟩ [.start, .search [0x62]]).table
        [0x62]).1 = .ok false)) = true := by decide +kernel
  obtain ⟨m, built, fails, found⟩ := Automaton.exists_built compiles
  have safe := fails_safely built (some 2) [.start, .search [0x62]]
  have again := safe.again [0x62] false found [.search [0x61]] (by simp)
  exact ⟨⟨m, some 2⟩, _, built, rfl, safe, fails, (safe.search _ _ fails).2, found,
    congrArg Prod.fst again⟩

end Session

end LazyMatcher

end ByteRegex
