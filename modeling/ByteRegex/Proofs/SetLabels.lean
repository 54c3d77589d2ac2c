import ByteRegex.Proofs.Intervals

/-! Which byte sets have the same label. The labels of bytes are a prefix code, so a label tells the signs it
is made of, but neither the hyphen of a range nor the circumflex of a complement is escaped when it is a
member. Two sets with other members have the same label if they hold opposite numbers on the two sides of a
stored hyphen, or if the one begins with a circumflex that is the sign of the other, and in no other case. -/

namespace ByteRegex

def hexValue (c : Char) : Nat :=
  if c.toNat < 58 then c.toNat - 48 else c.toNat - 55

/-- The byte that a character stands for after a backslash, unless digits have to follow. -/
def unescape? : Char → Option UInt8
  | 't' => some 0x09
  | 'r' => some 0x0d
  | 'n' => some 0x0a
  | 'x' => none
  | c => some (UInt8.ofNat c.toNat)

def readByte? : List Char → Option (UInt8 × List Char)
  | '\x27' :: ' ' :: '\x27' :: rest => some (0x20, rest)
  | '\\' :: 'x' :: hi :: lo :: rest => some (UInt8.ofNat (16 * hexValue hi + hexValue lo), rest)
  | '\\' :: c :: rest => (unescape? c).map (·, rest)
  | c :: rest => if c = '\x27' ∨ c = '\\' then none else some (UInt8.ofNat c.toNat, rest)
  | [] => none

theorem readByte?_append {text left : List Char} {b : UInt8} (read : readByte? text = some (b, left))
    (rest : List Char) : readByte? (text ++ rest) = some (b, left ++ rest) := by
  revert read
  fun_cases readByte? text with
  | case1 more =>
    rintro ⟨⟩
    rfl
  | case2 hi lo more =>
    rintro ⟨⟩
    rfl
  | case3 c more other =>
    intro read
    obtain ⟨_, escaped, ⟨⟩⟩ := Option.map_eq_some_iff.1 read
    have noDigits : c ≠ 'x' := by
      rintro rfl
      cases escaped
    rw [List.cons_append, List.cons_append, readByte?, escaped]
    · rfl
    · exact fun _ _ _ digits => absurd digits noDigits
  | case4 c more => intro read; cases read
  | case5 c more quoted digits escaped visible =>
    rintro ⟨⟩
    rw [List.cons_append, readByte?, if_neg visible]
    · exact fun _ quote => absurd (.inl quote) visible
    · exact fun _ _ _ backslash => absurd (.inr backslash) visible
    · exact fun _ _ backslash => absurd (.inr backslash) visible
  | case6 => intro read; cases read

theorem readByte?_byteLabel (b : UInt8) (rest : List Char) :
    readByte? (byteLabel b ++ rest) = some (b, rest) := by
  have every : ∀ n : Fin 256, readByte? (byteLabel (UInt8.ofNat n)) = some (UInt8.ofNat n, []) := by
    decide +kernel
  have own := every ⟨b.toNat, b.toNat_lt⟩
  rw [UInt8.ofNat_toNat] at own
  exact readByte?_append own rest

theorem flatMap_byteLabel_inj {bs cs : List UInt8} :
    bs.flatMap byteLabel = cs.flatMap byteLabel ↔ bs = cs := by
  refine ⟨fun same => ?_, congrArg _⟩
  have read (b : UInt8) (bs : List UInt8) :
      readByte? ((b :: bs).flatMap byteLabel) = some (b, bs.flatMap byteLabel) := by
    rw [List.flatMap_cons, readByte?_byteLabel]
  induction bs generalizing cs with
  | nil =>
    cases cs with
    | nil => rfl
    | cons c cs =>
      have nothing := read c cs
      rw [← same, List.flatMap_nil] at nothing
      cases nothing
  | cons b bs ih =>
    have first := read b bs
    cases cs with
    | nil =>
      rw [same] at first
      cases first
    | cons c cs =>
      rw [same, read, Option.some.injEq, Prod.mk.injEq] at first
      rw [first.1, ih first.2.symm]

namespace ByteSet

variable {s t : ByteSet} {k : Nat}

def Stores (s : ByteSet) (k : Nat) : Prop :=
  s.bits.getLsbD k = true

theorem Stores.lt (h : s.Stores k) : k < 128 :=
  BitVec.lt_of_getLsbD h

theorem runs_stored (s : ByteSet) : Apart 0 (runs s.stored) ∧ Held (runs s.stored) = s.Stores := by
  have ascending : s.stored.Pairwise (· < ·) := List.pairwise_lt_range.filter _
  obtain ⟨apart, held_iff⟩ := runs_spec ascending fun k _ => Nat.zero_le k
  refine ⟨apart, funext fun k => propext ((held_iff k).trans ?_)⟩
  rw [stored, List.mem_filter, List.mem_range]
  exact and_iff_right_of_imp Stores.lt

theorem contains_eq_iff :
    (∀ b, s.contains b = t.contains b) ↔ s.negated = t.negated ∧ ∀ k, s.Stores k ↔ t.Stores k := by
  constructor
  · intro same
    have negated : s.negated = t.negated := by simpa [contains] using same 0x80
    refine ⟨negated, fun k => ?_⟩
    obtain small | large := Nat.lt_or_ge k 128
    · have byte : (UInt8.ofNat k).toNat = k := by
        rw [UInt8.toNat_ofNat', Nat.mod_eq_of_lt (by omega)]
      have bits := same (UInt8.ofNat k)
      rw [contains, contains, byte, negated, Bool.bne_left_inj] at bits
      rw [Stores, Stores, bits]
    · exact iff_of_false (fun h => absurd h.lt (by omega)) fun h => absurd h.lt (by omega)
  · rintro ⟨negated, stores⟩ b
    have bits := Bool.eq_iff_iff.2 (stores b.toNat)
    rw [contains, contains, bits, negated]

def spelled (s : ByteSet) : List Nat :=
  (if s.negated then [0x5e] else []) ++ spell (runs s.stored)

theorem flatMap_runLabel (rs : List (Nat × Nat)) :
    rs.flatMap runLabel = ((spell rs).map UInt8.ofNat).flatMap byteLabel := by
  induction rs with
  | nil => rfl
  | cons r rs ih =>
    obtain ⟨lo, hi⟩ := r
    have hyphen : byteLabel 0x2d = ['-'] := by decide
    rw [List.flatMap_cons, ih, spell_cons, runLabel]
    split <;> simp [hyphen]

theorem label_eq (s : ByteSet) :
    s.label = '[' :: ((s.spelled.map UInt8.ofNat).flatMap byteLabel ++ [']']) := by
  have caret : byteLabel 0x5e = ['^'] := by decide
  rw [label, spelled, flatMap_runLabel]
  cases s.negated <;> simp [caret]

theorem lt_of_mem_spelled (member : k ∈ s.spelled) : k < 256 := by
  obtain ⟨apart, held_eq⟩ := runs_stored s
  obtain sign | inside := List.mem_append.1 member
  · split at sign
    · cases List.mem_singleton.1 sign
      decide
    · cases sign
  · obtain rfl | held := apart.mem_spell inside
    · decide
    · rw [held_eq] at held
      have small := held.lt
      omega

theorem label_eq_iff_spelled : s.label = t.label ↔ s.spelled = t.spelled := by
  have back (s : ByteSet) : (s.spelled.map UInt8.ofNat).map UInt8.toNat = s.spelled := by
    rw [List.map_map]
    refine (List.map_congr_left fun k member => ?_).trans (List.map_id _)
    exact (UInt8.toNat_ofNat').trans (Nat.mod_eq_of_lt (lt_of_mem_spelled member))
  rw [label_eq, label_eq, List.cons.injEq, List.append_cancel_right_eq, flatMap_byteLabel_inj]
  refine ⟨fun ⟨_, same⟩ => ?_, fun same => ⟨rfl, congrArg _ same⟩⟩
  rw [← back s, same, back]

theorem spelled_eq_iff (negated : s.negated = t.negated) : s.spelled = t.spelled ↔
    (∀ k, s.Stores k ↔ t.Stores k) ∨ ∃ x y left right, Crosses s.Stores t.Stores x y left right := by
  obtain ⟨apart, held_eq⟩ := runs_stored s
  obtain ⟨apart', held_eq'⟩ := runs_stored t
  rw [spelled, spelled, negated, List.append_cancel_left_eq, apart.spell_eq_iff apart',
    apart.differ_iff apart', held_eq, held_eq']
  refine or_congr_left ⟨fun same k => ?_, fun same => apart.eq_of_held apart' fun k => ?_⟩
  · rw [← held_eq, same, held_eq']
  · rw [held_eq, held_eq', same]

theorem spelled_eq_iff_veils (plain : s.negated = false) (complemented : t.negated = true) :
    s.spelled = t.spelled ↔ ∃ z, Veils s.Stores t.Stores z := by
  obtain ⟨apart, held_eq⟩ := runs_stored s
  obtain ⟨apart', held_eq'⟩ := runs_stored t
  rw [spelled, spelled, plain, complemented, ← held_eq, ← held_eq',
    ← apart.spell_eq_caret_iff_veils apart']
  rfl

/-- The cases in which sets with other members have the same label. Both are complemented or neither is, and
they differ around a stored hyphen, or one of them is complemented and the other begins with a circumflex. -/
def Confused (s t : ByteSet) : Prop :=
  (s.negated = t.negated ∧ ∃ x y left right, Crosses s.Stores t.Stores x y left right) ∨
  (s.negated = false ∧ t.negated = true ∧ ∃ z, Veils s.Stores t.Stores z) ∨
  (s.negated = true ∧ t.negated = false ∧ ∃ z, Veils t.Stores s.Stores z)

theorem Confused.differ (h : Confused s t) : ¬∀ b, s.contains b = t.contains b := by
  rw [contains_eq_iff]
  rintro ⟨negated, stores⟩
  obtain ⟨-, x, y, left, right, crosses⟩ | ⟨plain, complemented, -⟩ | ⟨complemented, plain, -⟩ := h
  · exact crosses.differ stores
  · rw [plain, complemented] at negated
    cases negated
  · rw [plain, complemented] at negated
    cases negated

/-- Two sets have the same label if they have the same members or are confused, and in no other case.
Confused sets never have the same members. -/
theorem label_eq_iff (s t : ByteSet) :
    (s.label = t.label ↔ (∀ b, s.contains b = t.contains b) ∨ Confused s t) ∧
    ¬((∀ b, s.contains b = t.contains b) ∧ Confused s t) := by
  refine ⟨?_, fun ⟨same, confused⟩ => confused.differ same⟩
  rw [label_eq_iff_spelled, contains_eq_iff, Confused]
  cases plain : s.negated <;> cases plain' : t.negated
  · simp [spelled_eq_iff (plain.trans plain'.symm)]
  · simp [spelled_eq_iff_veils plain plain']
  · rw [eq_comm]
    simp [spelled_eq_iff_veils plain' plain]
  · simp [spelled_eq_iff (plain.trans plain'.symm)]

/-- Labels of different sets. A circumflex alone is shown like the complement of nothing, and a range from it
like the complement of a hyphen and the last byte. A hyphen between two bytes is shown like the range from
the one to the other, and a range to the hyphen like a range from it. -/
theorem label_confuses :
    (empty.add 0x5e).label = (empty.setNegated true).label ∧
    (empty.add 0x5e).contains 0x80 ≠ (empty.setNegated true).contains 0x80 ∧
    (empty.addRange 0x5e 0x61).label = ((empty.add 0x2d).add 0x61 |>.setNegated true).label ∧
    (empty.addRange 0x5e 0x61).contains 0x80 ≠ ((empty.add 0x2d).add 0x61 |>.setNegated true).contains 0x80 ∧
    (((empty.add 0x2b).add 0x2d).add 0x2f).label = (empty.addRange 0x2b 0x2f).label ∧
    (((empty.add 0x2b).add 0x2d).add 0x2f).contains 0x2c ≠ (empty.addRange 0x2b 0x2f).contains 0x2c ∧
    ((empty.addRange 0x2b 0x2d).add 0x2f).label = ((empty.add 0x2b).addRange 0x2d 0x2f).label ∧
    ((empty.addRange 0x2b 0x2d).add 0x2f).contains 0x2c ≠
      ((empty.add 0x2b).addRange 0x2d 0x2f).contains 0x2c := by
  decide +kernel

end ByteSet

end ByteRegex
