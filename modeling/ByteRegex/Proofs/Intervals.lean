import ByteRegex.ByteSet

/-! Runs of consecutive numbers, and how they are spelled. The runs of an ascending list are the only ones
apart from each other that hold its numbers. A run of one number is spelled by the number, and any other run
by its ends with the number of a hyphen between them. The hyphen may be in a run as well, so two lists of
runs can be spelled alike. They are then the same but for the runs around one hyphen. Which runs are spelled
like others after a circumflex follows in the same way. -/

namespace ByteRegex.ByteSet

def Held (rs : List (Nat × Nat)) (k : Nat) : Prop :=
  ∃ r ∈ rs, r.1 ≤ k ∧ k ≤ r.2

/-- Runs in ascending order from `n` on, with some number between each and the next. -/
inductive Apart : Nat → List (Nat × Nat) → Prop
  | nil {n : Nat} : Apart n []
  | cons {n lo hi : Nat} {rs : List (Nat × Nat)} (start : n ≤ lo) (le : lo ≤ hi)
      (rest : Apart (hi + 2) rs) : Apart n ((lo, hi) :: rs)

def spell (rs : List (Nat × Nat)) : List Nat :=
  rs.flatMap fun (lo, hi) => if lo = hi then [lo] else [lo, 0x2d, hi]

/-- The runs of `x`, a hyphen and `y`, with the numbers between `x` and the hyphen or without them, and the
same on the other side. -/
def around (x y : Nat) : Bool → Bool → List (Nat × Nat)
  | false, false => [(x, x), (0x2d, 0x2d), (y, y)]
  | true, true => [(x, y)]
  | true, false => [(x, 0x2d), (y, y)]
  | false, true => [(x, x), (0x2d, y)]

variable {n m k x y lo hi : Nat} {rs us before after : List (Nat × Nat)} {left right : Bool}

@[simp] theorem held_nil : ¬Held [] k := by
  rintro ⟨r, member, -⟩
  cases member

@[simp] theorem held_cons : Held ((lo, hi) :: rs) k ↔ lo ≤ k ∧ k ≤ hi ∨ Held rs k := by
  simp [Held]

@[simp] theorem held_append : Held (rs ++ us) k ↔ Held rs k ∨ Held us k := by
  simp [Held, or_and_right, exists_or]

@[simp] theorem apart_nil : Apart n [] :=
  .nil

@[simp] theorem apart_cons : Apart n ((lo, hi) :: rs) ↔ n ≤ lo ∧ lo ≤ hi ∧ Apart (hi + 2) rs := by
  constructor
  · intro h
    cases h with
    | cons start le rest => exact ⟨start, le, rest⟩
  · exact fun h => .cons h.1 h.2.1 h.2.2

theorem Apart.mono (h : Apart n rs) (le : m ≤ n) : Apart m rs := by
  cases h with
  | nil => exact .nil
  | cons start within rest => exact .cons (Nat.le_trans le start) within rest

theorem Apart.le_of_held (h : Apart n rs) (held : Held rs k) : n ≤ k := by
  induction h with
  | nil => exact absurd held held_nil
  | cons start le rest ih =>
    obtain ⟨low, -⟩ | later := held_cons.1 held
    · exact Nat.le_trans start low
    · have beyond := ih later
      omega

theorem apart_append : Apart n (rs ++ us) ↔
    Apart n rs ∧ ∃ m, n ≤ m ∧ (∀ k, Held rs k → k + 2 ≤ m) ∧ Apart m us := by
  induction rs generalizing n with
  | nil => exact ⟨fun h => ⟨.nil, n, Nat.le_refl n, by simp, h⟩, fun ⟨_, m, le, _, h⟩ => h.mono le⟩
  | cons r rs ih =>
    obtain ⟨lo, hi⟩ := r
    rw [List.cons_append, apart_cons, apart_cons, ih]
    constructor
    · rintro ⟨start, le, rest, m, low, bound, apart⟩
      refine ⟨⟨start, le, rest⟩, m, by omega, fun k held => ?_, apart⟩
      obtain ⟨-, high⟩ | later := held_cons.1 held
      · omega
      · exact bound k later
    · rintro ⟨⟨start, le, rest⟩, m, low, bound, apart⟩
      have last := bound hi (held_cons.2 (.inl ⟨le, Nat.le_refl hi⟩))
      exact ⟨start, le, rest, m, last, fun k held => bound k (held_cons.2 (.inr held)), apart⟩

theorem Apart.first_le {lo' hi' : Nat} (apart : Apart (hi' + 2) us) (le' : lo' ≤ hi') (le : lo ≤ hi)
    (within : ∀ k, lo ≤ k ∧ k ≤ hi → lo' ≤ k ∧ k ≤ hi' ∨ Held us k) :
    lo' ≤ lo ∧ (lo = lo' → hi ≤ hi') := by
  constructor
  · obtain inside | later := within lo ⟨Nat.le_refl lo, le⟩
    · exact inside.1
    · have beyond := apart.le_of_held later
      omega
  · rintro rfl
    refine Nat.le_of_not_lt fun less => ?_
    obtain inside | later := within (hi' + 1) ⟨by omega, less⟩
    · exact absurd inside.2 (Nat.not_succ_le_self hi')
    · have beyond := apart.le_of_held later
      omega

theorem Apart.eq_of_held (h : Apart n rs) (h' : Apart m us) (same : ∀ k, Held rs k ↔ Held us k) :
    rs = us := by
  induction h generalizing m us with
  | nil =>
    cases h' with
    | nil => rfl
    | @cons _ lo hi _ _ le _ =>
      exact absurd ((same lo).2 (held_cons.2 (.inl ⟨Nat.le_refl lo, le⟩))) held_nil
  | @cons _ lo hi rs start le rest ih =>
    cases h' with
    | nil => exact absurd ((same lo).1 (held_cons.2 (.inl ⟨Nat.le_refl lo, le⟩))) held_nil
    | @cons _ lo' hi' us start' le' rest' =>
      simp only [held_cons] at same
      have first := rest'.first_le le' le fun k inside => (same k).1 (.inl inside)
      have first' := rest.first_le le le' fun k inside => (same k).2 (.inl inside)
      obtain rfl : lo = lo' := Nat.le_antisymm first'.1 first.1
      obtain rfl : hi = hi' := Nat.le_antisymm (first.2 rfl) (first'.2 rfl)
      refine congrArg _ (ih rest' fun k => ?_)
      constructor
      · intro held
        have beyond := rest.le_of_held held
        exact ((same k).1 (.inr held)).resolve_left (by omega)
      · intro held
        have beyond := rest'.le_of_held held
        exact ((same k).2 (.inr held)).resolve_left (by omega)

/-- The runs of an ascending list are apart and hold its numbers. -/
theorem runs_spec {l : List Nat} (ascending : l.Pairwise (· < ·)) (low : ∀ k ∈ l, n ≤ k) :
    Apart n (runs l) ∧ ∀ k, Held (runs l) k ↔ k ∈ l := by
  induction l generalizing n with
  | nil => simp [runs]
  | cons a l ih =>
    obtain ⟨first, ascending⟩ := List.pairwise_cons.1 ascending
    obtain ⟨start, -⟩ := List.forall_mem_cons.1 low
    obtain ⟨apart, held_iff⟩ := ih ascending first
    simp only [List.mem_cons, ← held_iff]
    rw [runs]
    split
    next lo hi more found =>
      rw [found] at apart
      obtain ⟨next, le, rest⟩ := apart_cons.1 apart
      -- the next run begins right after the number or leaves a gap
      have after : a + 1 ≤ lo := next
      split
      case isTrue joined =>
        refine ⟨.cons start (by omega) rest, fun k => ?_⟩
        rw [found, held_cons, held_cons, ← or_assoc]
        exact or_congr_left (by omega)
      case isFalse gap =>
        refine ⟨.cons start (Nat.le_refl a) (.cons (by omega) le rest), fun k => ?_⟩
        rw [found, held_cons]
        exact or_congr_left (by omega)
    next found =>
      refine ⟨.cons start (Nat.le_refl a) .nil, fun k => ?_⟩
      rw [found, held_cons]
      exact or_congr_left (by omega)

@[simp] theorem spell_nil : spell [] = [] :=
  rfl

theorem spell_cons : spell ((lo, hi) :: rs) = (if lo = hi then [lo] else [lo, 0x2d, hi]) ++ spell rs :=
  rfl

theorem spell_single : spell ((lo, lo) :: rs) = lo :: spell rs := by
  rw [spell_cons, if_pos rfl, List.singleton_append]

theorem spell_range (less : lo < hi) : spell ((lo, hi) :: rs) = lo :: 0x2d :: hi :: spell rs := by
  rw [spell_cons, if_neg (Nat.ne_of_lt less)]
  rfl

theorem spell_append : spell (rs ++ us) = spell rs ++ spell us :=
  List.flatMap_append

theorem Apart.mem_spell (h : Apart n rs) (member : k ∈ spell rs) : k = 0x2d ∨ Held rs k := by
  induction h with
  | nil => cases member
  | @cons _ lo hi rs start le rest ih =>
    rw [held_cons]
    obtain rfl | less := Nat.eq_or_lt_of_le le
    · rw [spell_single, List.mem_cons] at member
      obtain rfl | later := member
      · exact .inr (.inl ⟨Nat.le_refl k, Nat.le_refl k⟩)
      · exact (ih later).imp_right .inr
    · rw [spell_range less, List.mem_cons, List.mem_cons, List.mem_cons] at member
      obtain rfl | rfl | rfl | later := member
      · exact .inr (.inl ⟨Nat.le_refl k, le⟩)
      · exact .inl rfl
      · exact .inr (.inl ⟨le, Nat.le_refl k⟩)
      · exact (ih later).imp_right .inr

theorem Apart.exists_of_spell (h : Apart n rs) {ks : List Nat} (spelled : spell rs = k :: ks) :
    n ≤ k ∧ ∃ hi us, rs = (k, hi) :: us ∧ Apart (hi + 2) us ∧
      (hi = k ∧ ks = spell us ∨ k < hi ∧ ks = 0x2d :: hi :: spell us) := by
  cases h with
  | nil => cases spelled
  | @cons _ lo hi rs start le rest =>
    obtain rfl | less := Nat.eq_or_lt_of_le le
    · rw [spell_single, List.cons.injEq] at spelled
      obtain ⟨rfl, rfl⟩ := spelled
      exact ⟨start, lo, rs, rfl, rest, .inl ⟨rfl, rfl⟩⟩
    · rw [spell_range less, List.cons.injEq] at spelled
      obtain ⟨rfl, rfl⟩ := spelled
      exact ⟨start, hi, rs, rfl, rest, .inr ⟨less, rfl⟩⟩

theorem Apart.eq_nil_of_spell (h : Apart n rs) (spelled : spell rs = []) : rs = [] := by
  cases h with
  | nil => rfl
  | @cons _ lo hi rs _ le _ =>
    obtain rfl | less := Nat.eq_or_lt_of_le le
    · rw [spell_single] at spelled
      cases spelled
    · rw [spell_range less] at spelled
      cases spelled

/-- Runs beyond the hyphen are spelled in one way only. -/
theorem Apart.eq_of_spell (h : Apart n rs) (h' : Apart m us) (beyond : 0x2d < n) (beyond' : 0x2d < m)
    (same : spell rs = spell us) : rs = us := by
  induction h generalizing m us with
  | nil => exact (h'.eq_nil_of_spell same.symm).symm
  | @cons n lo hi rs start le rest ih =>
    obtain rfl | less := Nat.eq_or_lt_of_le le
    · rw [spell_single] at same
      obtain ⟨-, hi', us, rfl, rest', ⟨rfl, tail⟩ | ⟨-, tail⟩⟩ := h'.exists_of_spell same.symm
      · rw [ih rest' (by omega) (by omega) tail]
      · -- a hyphen comes next in the spelling of a range, but no run has it
        have later := (rest.exists_of_spell tail).1
        omega
    · rw [spell_range less] at same
      obtain ⟨-, hi', us, rfl, rest', ⟨rfl, tail⟩ | ⟨-, tail⟩⟩ := h'.exists_of_spell same.symm
      · have later := (rest'.exists_of_spell tail.symm).1
        omega
      · simp only [List.cons.injEq, true_and] at tail
        obtain ⟨rfl, tail⟩ := tail
        rw [ih rest' (by omega) (by omega) tail]

theorem spell_around (low : x < 0x2d) (high : 0x2d < y) : spell (around x y left right) =
    if left = right then [x, 0x2d, y] else [x, 0x2d, 0x2d, y] := by
  have across : x < y := Nat.lt_trans low high
  cases left <;> cases right <;> simp [around, spell_single, spell_range, low, high, across]

/-- Two lists of runs that differ around a hyphen: the numbers on either side of it, up to `x` and up to
`y`, are all held by one of them and not held by the other. -/
def Differ (rs us : List (Nat × Nat)) : Prop :=
  ∃ before after x y left right, x + 1 < 0x2d ∧ 0x2d + 1 < y ∧
    rs = before ++ around x y left right ++ after ∧ us = before ++ around x y (!left) (!right) ++ after

theorem Differ.symm (h : Differ rs us) : Differ us rs := by
  obtain ⟨before, after, x, y, left, right, low, high, first, second⟩ := h
  refine ⟨before, after, x, y, !left, !right, low, high, second, ?_⟩
  rw [Bool.not_not, Bool.not_not]
  exact first

theorem Differ.cons (h : Differ rs us) (r : Nat × Nat) : Differ (r :: rs) (r :: us) := by
  obtain ⟨before, after, x, y, left, right, low, high, rfl, rfl⟩ := h
  exact ⟨r :: before, after, x, y, left, right, low, high, rfl, rfl⟩

theorem Differ.spell_eq (h : Differ rs us) : spell rs = spell us := by
  obtain ⟨before, after, x, y, left, right, low, high, rfl, rfl⟩ := h
  simp only [spell_append, spell_around (Nat.lt_of_succ_lt low) (Nat.lt_of_succ_lt high)]
  cases left <;> cases right <;> rfl

theorem differ_of_spell (rest : Apart (k + 2) rs) (less : k < hi) (rest' : Apart (hi + 2) us)
    (same : spell rs = 0x2d :: hi :: spell us) : Differ ((k, k) :: rs) ((k, hi) :: us) := by
  obtain ⟨low, last, rs, rfl, after, ⟨rfl, tail⟩ | ⟨beyond, tail⟩⟩ := rest.exists_of_spell same
  · -- the hyphen stands alone
    obtain ⟨high, last, rs, rfl, after', ⟨rfl, more⟩ | ⟨-, more⟩⟩ := after.exists_of_spell tail.symm
    · rw [rest'.eq_of_spell after' (by omega) (by omega) more]
      exact ⟨[], rs, k, last, false, false, low, high, rfl, rfl⟩
    · have later := (rest'.exists_of_spell more).1
      omega
  · -- the hyphen begins a range, so it ends the other range
    simp only [List.cons.injEq] at tail
    obtain ⟨rfl, tail⟩ := tail
    obtain ⟨high, last', us, rfl, after', ⟨rfl, more⟩ | ⟨-, more⟩⟩ := rest'.exists_of_spell tail
    · rw [after.eq_of_spell after' (by omega) (by omega) more]
      exact ⟨[], us, k, last', false, true, low, high, rfl, rfl⟩
    · have later := (after.exists_of_spell more).1
      omega

/-- Two lists of runs that are spelled alike are equal or differ around a hyphen. -/
theorem Apart.spell_eq_iff (h : Apart n rs) (h' : Apart m us) :
    spell rs = spell us ↔ rs = us ∨ Differ rs us := by
  refine ⟨fun same => ?_, fun h => h.elim (congrArg spell) Differ.spell_eq⟩
  induction h generalizing m us with
  | nil => exact .inl (h'.eq_nil_of_spell same.symm).symm
  | @cons n lo hi rs start le rest ih =>
    obtain rfl | less := Nat.eq_or_lt_of_le le
    · rw [spell_single] at same
      obtain ⟨-, hi', us, rfl, rest', ⟨rfl, tail⟩ | ⟨less', tail⟩⟩ := h'.exists_of_spell same.symm
      · exact (ih rest' tail).imp (congrArg _) (·.cons _)
      · exact .inr (differ_of_spell rest less' rest' tail)
    · rw [spell_range less] at same
      obtain ⟨-, hi', us, rfl, rest', ⟨rfl, tail⟩ | ⟨-, tail⟩⟩ := h'.exists_of_spell same.symm
      · exact .inr (differ_of_spell rest' less rest tail.symm).symm
      · simp only [List.cons.injEq, true_and] at tail
        obtain ⟨rfl, tail⟩ := tail
        exact (ih rest' tail).imp (congrArg _) (·.cons _)

theorem held_around (low : x < 0x2d) (high : 0x2d < y) :
    Held (around x y left right) k ↔ k = x ∨ k = 0x2d ∨ k = y ∨
      x < k ∧ k < 0x2d ∧ left = true ∨ 0x2d < k ∧ k < y ∧ right = true := by
  cases left <;> cases right <;> simp [around] <;> omega

theorem bounds_of_held_around (low : x < 0x2d) (high : 0x2d < y) (held : Held (around x y left right) k) :
    x ≤ k ∧ k ≤ y := by
  rw [held_around low high] at held
  omega

theorem Differ.held (h : Differ rs us) : Held us 0x2d := by
  obtain ⟨before, after, x, y, left, right, low, high, -, rfl⟩ := h
  have here : Held (around x y (!left) (!right)) 0x2d :=
    (held_around (by omega) (by omega)).2 (.inr (.inl rfl))
  exact held_append.2 (.inl (held_append.2 (.inr here)))

theorem apart_around (low : x + 1 < 0x2d) (high : 0x2d + 1 < y) :
    Apart n (around x y left right ++ after) ↔ n ≤ x ∧ Apart (y + 2) after := by
  cases left <;> cases right <;>
    simp only [around, List.cons_append, List.nil_append, apart_cons, Nat.le_refl, true_and] <;>
    refine and_congr_right fun _ => ?_
  · rw [and_iff_right (by omega), and_iff_right (by omega)]
  · rw [and_iff_right (by omega), and_iff_right (by omega)]
  · rw [and_iff_right (by omega), and_iff_right (by omega)]
  · rw [and_iff_right (by omega)]

/-- A set of numbers holds, from the number before `x` to the number after `y`, just the runs around the
hyphen. -/
def Surrounds (holds : Nat → Prop) (x y : Nat) (left right : Bool) : Prop :=
  ∀ k, x ≤ k + 1 → k ≤ y + 1 → (holds k ↔ Held (around x y left right) k)

theorem Surrounds.bounds {holds : Nat → Prop} (here : Surrounds holds x y left right) (low : x < 0x2d)
    (high : 0x2d < y) (first : x ≤ k + 1) (last : k ≤ y + 1) (held : holds k) : x ≤ k ∧ k ≤ y :=
  bounds_of_held_around low high ((here k first last).1 held)

theorem Apart.held_around_iff (low : x + 1 < 0x2d) (high : 0x2d + 1 < y)
    (h : Apart n (before ++ around x y left right ++ after)) :
    Surrounds (Held (before ++ around x y left right ++ after)) x y left right ∧
    (∀ k, k < x → (Held (before ++ around x y left right ++ after) k ↔ Held before k)) ∧
    ∀ k, y < k → (Held (before ++ around x y left right ++ after) k ↔ Held after k) := by
  rw [List.append_assoc] at h
  obtain ⟨-, m, -, bound, rest⟩ := apart_append.1 h
  obtain ⟨le, apart⟩ := (apart_around low high).1 rest
  have early {k : Nat} (held : Held before k) : k + 2 ≤ x := Nat.le_trans (bound k held) le
  have late {k : Nat} (held : Held after k) : y + 2 ≤ k := apart.le_of_held held
  have inside {k : Nat} (held : Held (around x y left right) k) : x ≤ k ∧ k ≤ y :=
    bounds_of_held_around (by omega) (by omega) held
  refine ⟨fun k first last => ?_, fun k less => ?_, fun k more => ?_⟩ <;> rw [held_append, held_append]
  · rw [or_iff_left fun held => absurd (late held) (by omega),
      or_iff_right fun held => absurd (early held) (by omega)]
  · rw [or_iff_left fun held => absurd (late held) (by omega),
      or_iff_left fun held => absurd (inside held) (by omega)]
  · rw [or_assoc, or_iff_right fun held => absurd (early held) (by omega),
      or_iff_right fun held => absurd (inside held) (by omega)]

theorem exists_bound (rs : List (Nat × Nat)) : ∃ bound, ∀ k, Held rs k → k < bound := by
  induction rs with
  | nil => exact ⟨0, by simp⟩
  | cons r rs ih =>
    obtain ⟨bound, below⟩ := ih
    refine ⟨max bound (r.2 + 1), fun k held => ?_⟩
    obtain ⟨-, high⟩ | later := held_cons.1 held
    · omega
    · have := below k later
      omega

theorem exists_picked (rs : List (Nat × Nat)) (n : Nat) (pick : Nat → Prop) :
    ∃ us, Apart n us ∧ ∀ k, Held us k ↔ Held rs k ∧ n ≤ k ∧ pick k := by
  classical
  obtain ⟨bound, below⟩ := exists_bound rs
  let picked := (List.range bound).filter fun k => decide (Held rs k ∧ n ≤ k ∧ pick k)
  have mem_iff (k : Nat) : k ∈ picked ↔ Held rs k ∧ n ≤ k ∧ pick k := by
    simpa [picked] using fun held _ _ => below k held
  have ascending : picked.Pairwise (· < ·) := List.pairwise_lt_range.filter _
  have spec := runs_spec ascending fun k member => ((mem_iff k).1 member).2.1
  exact ⟨runs picked, spec.1, fun k => (spec.2 k).trans (mem_iff k)⟩

theorem Apart.exists_around (h : Apart n rs) (low : x + 1 < 0x2d) (high : 0x2d + 1 < y)
    (here : Surrounds (Held rs) x y left right) : ∃ before after,
      (∀ left right, Apart n (before ++ around x y left right ++ after)) ∧
      (∀ k, k < x → (Held before k ↔ Held rs k)) ∧ ∀ k, y < k → (Held after k ↔ Held rs k) := by
  obtain ⟨before, apart_before, mem_before⟩ := exists_picked rs n (· < x)
  obtain ⟨after, apart_after, mem_after⟩ := exists_picked rs (y + 2) fun _ => True
  have margin {k : Nat} := here.bounds (k := k) (by omega) (by omega)
  have first : Held rs x :=
    (here x (by omega) (by omega)).2 ((held_around (by omega) (by omega)).2 (.inl rfl))
  refine ⟨before, after, fun left right => ?_, fun k less => ?_, fun k more => ?_⟩
  · rw [List.append_assoc, apart_append]
    refine ⟨apart_before, x, h.le_of_held first, fun k held => ?_,
      (apart_around low high).2 ⟨Nat.le_refl x, apart_after⟩⟩
    obtain ⟨held, -, less⟩ := (mem_before k).1 held
    refine Nat.lt_of_not_le fun next => ?_
    have := margin next (by omega) held
    omega
  · rw [mem_before]
    exact and_iff_left_of_imp fun held => ⟨h.le_of_held held, less⟩
  · rw [mem_after]
    refine and_iff_left_of_imp fun held => ⟨Nat.lt_of_not_le fun next => ?_, trivial⟩
    have := margin (by omega) next held
    omega

theorem Apart.eq_around (h : Apart n rs) (low : x + 1 < 0x2d) (high : 0x2d + 1 < y)
    (here : Surrounds (Held rs) x y left right) (apart : Apart n (before ++ around x y left right ++ after))
    (early : ∀ k, k < x → (Held before k ↔ Held rs k)) (late : ∀ k, y < k → (Held after k ↔ Held rs k)) :
    rs = before ++ around x y left right ++ after := by
  obtain ⟨here', early', late'⟩ := apart.held_around_iff low high
  refine h.eq_of_held apart fun k => ?_
  obtain less | ⟨first, last⟩ | more : k < x ∨ (x ≤ k ∧ k ≤ y) ∨ y < k := by omega
  · exact ((early' k less).trans (early k less)).symm
  · exact (here k (by omega) (by omega)).trans (here' k (by omega) (by omega)).symm
  · exact ((late' k more).trans (late k more)).symm

/-- Two sets of numbers that hold opposite runs around the hyphen and agree elsewhere. -/
structure Crosses (holds holds' : Nat → Prop) (x y : Nat) (left right : Bool) : Prop where
  low : x + 1 < 0x2d
  high : 0x2d + 1 < y
  here : Surrounds holds x y left right
  there : Surrounds holds' x y (!left) (!right)
  outside : ∀ k, k < x ∨ y < k → (holds k ↔ holds' k)

theorem Crosses.differ {holds holds' : Nat → Prop} (h : Crosses holds holds' x y left right) :
    ¬∀ k, holds k ↔ holds' k := by
  intro same
  have low := h.low
  have high := h.high
  have next := ((h.here (x + 1) (by omega) (by omega)).symm.trans (same (x + 1))).trans
    (h.there (x + 1) (by omega) (by omega))
  rw [held_around (by omega) (by omega), held_around (by omega) (by omega)] at next
  cases left <;> simp at next <;> omega

theorem Apart.differ_iff (h : Apart n rs) (h' : Apart n us) :
    Differ rs us ↔ ∃ x y left right, Crosses (Held rs) (Held us) x y left right := by
  constructor
  · rintro ⟨before, after, x, y, left, right, low, high, rfl, rfl⟩
    obtain ⟨here, early, late⟩ := h.held_around_iff low high
    obtain ⟨here', early', late'⟩ := h'.held_around_iff low high
    refine ⟨x, y, left, right, low, high, here, here', fun k outside => ?_⟩
    obtain less | more := outside
    · exact (early k less).trans (early' k less).symm
    · exact (late k more).trans (late' k more).symm
  · rintro ⟨x, y, left, right, low, high, here, here', outside⟩
    obtain ⟨before, after, apart, early, late⟩ := h.exists_around low high here
    refine ⟨before, after, x, y, left, right, low, high,
      h.eq_around low high here (apart left right) early late,
      h'.eq_around low high here' (apart (!left) (!right)) (fun k less => ?_) fun k more => ?_⟩
    · exact (early k less).trans (outside k (.inl less))
    · exact (late k more).trans (outside k (.inr more))

theorem Apart.spell_eq_caret_iff (h : Apart n rs) (h' : Apart m us) :
    spell rs = 0x5e :: spell us ↔ ∃ z rest, rs = (0x5e, z) :: rest ∧
      (z = 0x5e ∧ us = rest ∨ 0x5e < z ∧ us = (0x2d, 0x2d) :: (z, z) :: rest) := by
  constructor
  · intro same
    obtain ⟨-, z, rest, rfl, apart, ⟨rfl, tail⟩ | ⟨less, tail⟩⟩ := h.exists_of_spell same
    · refine ⟨_, rest, rfl, .inl ⟨rfl, ?_⟩⟩
      refine ((h'.spell_eq_iff apart).1 tail).resolve_right fun differ => ?_
      exact absurd (apart.le_of_held differ.held) (by omega)
    · refine ⟨z, rest, rfl, .inr ⟨less, ?_⟩⟩
      obtain ⟨-, last, us, rfl, apart', ⟨rfl, more⟩ | ⟨-, more⟩⟩ := h'.exists_of_spell tail
      · obtain ⟨-, last', us, rfl, apart'', ⟨rfl, ends⟩ | ⟨-, ends⟩⟩ := apart'.exists_of_spell more.symm
        · rw [apart.eq_of_spell apart'' (by omega) (by omega) ends]
        · have later := (apart.exists_of_spell ends).1
          omega
      · simp only [List.cons.injEq] at more
        omega
  · rintro ⟨z, rest, rfl, ⟨rfl, rfl⟩ | ⟨less, rfl⟩⟩
    · exact spell_single
    · rw [spell_range less, spell_single, spell_single]

/-- Two sets of numbers that are the same above some number after the circumflex. Up to there the one holds
the numbers from the circumflex on, to `z`, and the other holds nothing if that is the circumflex alone, or
else the hyphen and `z`. -/
structure Veils (holds holds' : Nat → Prop) (z : Nat) : Prop where
  caret : 0x5e ≤ z
  range : ∀ k ≤ z + 1, (holds k ↔ 0x5e ≤ k ∧ k ≤ z)
  instead : ∀ k ≤ z + 1, (holds' k ↔ 0x5e < z ∧ (k = 0x2d ∨ k = z))
  above : ∀ k, z + 1 < k → (holds k ↔ holds' k)

theorem Apart.veils (h : Apart n ((0x5e, y) :: rs))
    (other : y = 0x5e ∧ us = rs ∨ 0x5e < y ∧ us = (0x2d, 0x2d) :: (y, y) :: rs) :
    Veils (Held ((0x5e, y) :: rs)) (Held us) y := by
  obtain ⟨-, le, apart⟩ := apart_cons.1 h
  have beyond {k : Nat} (less : k ≤ y + 1) : ¬Held rs k :=
    fun held => absurd (apart.le_of_held held) (by omega)
  refine ⟨le, fun k less => ?_, fun k less => ?_, fun k more => ?_⟩
  · rw [held_cons]
    exact or_iff_left (beyond less)
  · have not_held := beyond less
    obtain ⟨rfl, rfl⟩ | ⟨above, rfl⟩ := other
    · simp [not_held]
    · simp only [held_cons, not_held, or_false, above, true_and]
      omega
  · rw [held_cons, or_iff_right (by omega)]
    obtain ⟨rfl, rfl⟩ | ⟨above, rfl⟩ := other
    · rfl
    · rw [held_cons, held_cons, or_iff_right (by omega), or_iff_right (by omega)]

theorem Apart.eq_of_veils (h : Apart 0 rs) (h' : Apart 0 us) (veils : Veils (Held rs) (Held us) y) :
    ∃ rest, rs = (0x5e, y) :: rest ∧
      (y = 0x5e ∧ us = rest ∨ 0x5e < y ∧ us = (0x2d, 0x2d) :: (y, y) :: rest) := by
  obtain ⟨caret, range, instead, above⟩ := veils
  obtain ⟨rest, apart, mem_rest⟩ := exists_picked rs (y + 2) fun _ => True
  have early {k : Nat} (le : k ≤ y + 1) : ¬Held rest k :=
    fun held => absurd (apart.le_of_held held) (by omega)
  have late {k : Nat} (more : y + 1 < k) : Held rs k ↔ Held rest k := by
    rw [mem_rest]
    exact (and_iff_left ⟨more, trivial⟩).symm
  refine ⟨rest, h.eq_of_held (.cons (Nat.zero_le _) caret apart) fun k => ?_, ?_⟩
  · rw [held_cons]
    obtain more | le := Nat.lt_or_ge (y + 1) k
    · rw [late more, or_iff_right (by omega)]
    · rw [range k le, or_iff_left (early le)]
  · obtain rfl | less := Nat.eq_or_lt_of_le caret
    · refine .inl ⟨rfl, h'.eq_of_held apart fun k => ?_⟩
      obtain more | le := Nat.lt_or_ge (0x5e + 1) k
      · rw [← above k more, late more]
      · exact iff_of_false (fun held => absurd ((instead k le).1 held).1 (Nat.lt_irrefl _)) (early le)
    · have apart' : Apart 0 ((0x2d, 0x2d) :: (y, y) :: rest) :=
        .cons (Nat.zero_le _) (Nat.le_refl _) (.cons (by omega) (Nat.le_refl y) apart)
      refine .inr ⟨less, h'.eq_of_held apart' fun k => ?_⟩
      rw [held_cons, held_cons]
      obtain more | le := Nat.lt_or_ge (y + 1) k
      · rw [← above k more, late more, or_iff_right (by omega), or_iff_right (by omega)]
      · have not_held := early le
        rw [instead k le]
        simp only [not_held, less, true_and, or_false]
        omega

theorem Apart.spell_eq_caret_iff_veils (h : Apart 0 rs) (h' : Apart 0 us) :
    spell rs = 0x5e :: spell us ↔ ∃ z, Veils (Held rs) (Held us) z := by
  rw [h.spell_eq_caret_iff h']
  constructor
  · rintro ⟨z, rest, rfl, other⟩
    exact ⟨z, h.veils other⟩
  · rintro ⟨z, veils⟩
    exact ⟨z, h.eq_of_veils h' veils⟩

end ByteRegex.ByteSet
