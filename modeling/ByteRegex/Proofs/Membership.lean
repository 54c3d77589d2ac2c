import ByteRegex.ByteSet.ClassText

/-! Which bytes a character class contains. The text of a class tells whether it is complemented, and
what is left of it can be cut into items in one way only if every range is taken that begins at a cut.
The class contains the ASCII bytes that an item covers and no other byte, or if it is complemented all
bytes but these. -/

namespace ByteRegex

namespace ClassItem

def Covers (n : Nat) : ClassItem → Prop
  | single c => c.toNat = n
  | range lo hi => lo.toNat ≤ n ∧ n ≤ hi.toNat

/-- The items that a text is cut into from the left. A character stands alone only where no range
begins. -/
inductive Cuts : List Char → List ClassItem → Prop
  | nil : Cuts [] []
  | range {lo hi : Char} {cs : List Char} {items : List ClassItem} (ascending : lo.toNat < hi.toNat)
      (rest : Cuts cs items) : Cuts (lo :: '-' :: hi :: cs) (range lo hi :: items)
  | single {c : Char} {cs : List Char} {items : List ClassItem}
      (alone : ∀ hi ds, cs = '-' :: hi :: ds → hi.toNat ≤ c.toNat) (rest : Cuts cs items) :
      Cuts (c :: cs) (single c :: items)

variable {cs : List Char} {items : List ClassItem}

theorem cuts_cut (cs : List Char) : Cuts cs (cut cs) := by
  fun_induction cut cs with
  | case1 lo hi rest ascending ih => exact .range (Char.lt_def.1 ascending) ih
  | case2 lo hi rest other ih =>
    refine .single ?_ ih
    rintro _ _ ⟨⟩
    exact Nat.le_of_not_lt other
  | case3 c rest other ih =>
    exact .single (fun hi ds parts => (other hi ds parts).elim) ih
  | case4 => exact .nil

theorem Cuts.eq_cut (h : Cuts cs items) : items = cut cs := by
  induction h with
  | nil => rfl
  | range ascending rest ih => rw [cut, if_pos (Char.lt_def.2 ascending), ih]
  | @single c cs items alone rest ih =>
    by_cases begins : ∃ hi ds, cs = '-' :: hi :: ds
    · obtain ⟨hi, ds, rfl⟩ := begins
      have other : ¬c < hi := fun less => Nat.not_lt.2 (alone hi ds rfl) (Char.lt_def.1 less)
      rw [cut, if_neg other, ih]
    · rw [cut, ih]
      exact fun hi ds parts => begins ⟨hi, ds, parts⟩

end ClassItem

/-- What stands between the brackets of a class, or the whole text if one of them is missing. -/
inductive ClassText.Inside : List Char → List Char → Prop
  | both (inside : List Char) : Inside ('[' :: inside ++ [']']) inside
  | neither {text : List Char} (missing : ∀ inside, text ≠ '[' :: inside ++ [']']) : Inside text text

inductive ClassText.Signed : List Char → Bool → List Char → Prop
  | complemented (body : List Char) : Signed ('^' :: body) true body
  | plain {body : List Char} (other : ∀ rest, body ≠ '^' :: rest) : Signed body false body

def ClassText.Spells (text : List Char) (negated : Bool) (items : List ClassItem) : Prop :=
  ∃ inside body, Inside text inside ∧ Signed inside negated body ∧ ClassItem.Cuts body items

namespace ByteSet

open ClassItem ClassText

variable {n : Nat} {text inside body : List Char} {negated : Bool} {items : List ClassItem}

theorem getLsbD_addItem (s : ByteSet) (item : ClassItem) (small : n < 128) :
    (s.addItem item).bits.getLsbD n = true ↔ s.bits.getLsbD n = true ∨ item.Covers n := by
  have byte {c : Char} (ascii : c.toNat < 128) : (UInt8.ofNat c.toNat).toNat = c.toNat := by
    rw [UInt8.toNat_ofNat', Nat.mod_eq_of_lt (by omega)]
  cases item with
  | single c =>
    simp only [addItem, ascii?, Covers]
    by_cases ascii : c.toNat < 128
    · simp [add, BitVec.getLsbD_twoPow, byte ascii, ascii]
    · rw [if_neg ascii]
      exact (or_iff_left (by omega)).symm
  | range lo hi =>
    simp only [addItem, ascii?, Covers]
    by_cases ascii : lo.toNat < 128
    · simp only [if_pos ascii, addRange, BitVec.getLsbD_or, getLsbD_span, byte ascii, small]
      by_cases within : hi.toNat < 128
      · simp [if_pos within, byte within]
      · -- the last ASCII byte stands for the end of the range
        have below : n ≤ 127 ∧ n ≤ hi.toNat := by omega
        simp [if_neg within, below]
    · rw [if_neg ascii]
      exact (or_iff_left (by omega)).symm

theorem getLsbD_ofItems (items : List ClassItem) (negated : Bool) (small : n < 128) :
    (ofItems items negated).bits.getLsbD n = true ↔ ∃ item ∈ items, item.Covers n := by
  have added (s : ByteSet) : (items.foldl addItem s).bits.getLsbD n = true ↔
      s.bits.getLsbD n = true ∨ ∃ item ∈ items, item.Covers n := by
    induction items generalizing s with
    | nil => simp
    | cons item items ih =>
      rw [List.foldl_cons, ih, getLsbD_addItem s item small]
      simp [or_assoc]
  exact (added ⟨0, negated⟩).trans (by simp)

theorem contains_ofItems (items : List ClassItem) (negated : Bool) (b : UInt8) :
    (ofItems items negated).contains b = true ↔
      if b < 0x80 then ¬((∃ item ∈ items, item.Covers b.toNat) ↔ negated = true) else negated = true := by
  rw [contains, negated_ofItems, bne_iff_ne]
  split
  case isTrue ascii =>
    rw [← getLsbD_ofItems items negated (UInt8.lt_iff_toNat_lt.1 ascii), ne_eq, Bool.eq_iff_iff]
  case isFalse beyond =>
    have large : 128 ≤ b.toNat := Nat.le_of_not_lt fun less => beyond (UInt8.lt_iff_toNat_lt.2 less)
    simp [BitVec.getLsbD_of_ge _ _ large]

theorem contains_ofItems_not (items : List ClassItem) (b : UInt8) :
    (ofItems items true).contains b = !(ofItems items false).contains b := by
  rw [Bool.eq_iff_iff, Bool.not_eq_true', ← Bool.not_eq_true, contains_ofItems, contains_ofItems]
  split <;> simp

theorem unbracket_enclosed (cs : List Char) : unbracket ('[' :: cs ++ [']']) = cs := by
  simp [unbracket]

theorem unbracket_of_missing (missing : ∀ cs, text ≠ '[' :: cs ++ [']']) : unbracket text = text := by
  unfold unbracket
  split
  next rest =>
    split
    case isTrue last =>
      obtain ⟨cs, rfl⟩ := List.getLast?_eq_some_iff.1 last
      exact absurd rfl (missing cs)
    case isFalse => rfl
  next => rfl

theorem inside_iff : Inside text inside ↔ unbracket text = inside := by
  constructor
  · intro h
    cases h with
    | both => exact unbracket_enclosed inside
    | neither missing => exact unbracket_of_missing missing
  · rintro rfl
    by_cases enclosed : ∃ cs, text = '[' :: cs ++ [']']
    · obtain ⟨cs, rfl⟩ := enclosed
      rw [unbracket_enclosed]
      exact .both cs
    · have missing := not_exists.1 enclosed
      rw [unbracket_of_missing missing]
      exact .neither missing

theorem ofClassText_of_spells {text : String} (h : Spells text.toList negated items) :
    ofClassText text = ofItems items negated := by
  obtain ⟨inside, body, enclosed, signed, cuts⟩ := h
  rw [ofClassText, inside_iff.1 enclosed, cuts.eq_cut]
  cases signed with
  | complemented => rfl
  | plain other =>
    split
    next rest => exact absurd rfl (other rest)
    next => rfl

theorem exists_spells (text : List Char) : ∃ negated items, Spells text negated items := by
  have enclosed : Inside text (unbracket text) := inside_iff.2 rfl
  by_cases complemented : ∃ body, unbracket text = '^' :: body
  · obtain ⟨body, parts⟩ := complemented
    rw [parts] at enclosed
    exact ⟨true, _, _, body, enclosed, .complemented body, cuts_cut body⟩
  · exact ⟨false, _, _, _, enclosed, .plain (not_exists.1 complemented), cuts_cut _⟩

/-- What a class contains is told by its items and by the sign before them: an ASCII byte that an item
covers, or that none covers if the class is complemented, and all other bytes if it is complemented.
So a sign between brackets gives the complement of the class without it. -/
theorem contains_ofClassText :
    (∀ text : String, (∃ negated items, Spells text.toList negated items) ∧
      ∀ negated items, Spells text.toList negated items → ∀ b : UInt8,
        ((ofClassText text).contains b = true ↔
          if b < 0x80 then ¬((∃ item ∈ items, item.Covers b.toNat) ↔ negated = true)
          else negated = true)) ∧
    ∀ s : String, (∀ rest, s.toList ≠ '^' :: rest) → ∀ b : UInt8,
      (ofClassText ("[^" ++ s ++ "]")).contains b = !(ofClassText ("[" ++ s ++ "]")).contains b := by
  refine ⟨fun text => ⟨exists_spells _, fun negated items spells b => ?_⟩, fun s other b => ?_⟩
  · rw [ofClassText_of_spells spells, contains_ofItems]
  · have enclosed : ("[" ++ s ++ "]").toList = '[' :: s.toList ++ [']'] := by simp
    have enclosed' : ("[^" ++ s ++ "]").toList = '[' :: ('^' :: s.toList) ++ [']'] := by simp
    have plain : Spells ("[" ++ s ++ "]").toList false (cut s.toList) :=
      ⟨_, _, enclosed ▸ .both _, .plain other, cuts_cut _⟩
    have complemented : Spells ("[^" ++ s ++ "]").toList true (cut s.toList) :=
      ⟨_, _, enclosed' ▸ .both _, .complemented _, cuts_cut _⟩
    rw [ofClassText_of_spells plain, ofClassText_of_spells complemented, contains_ofItems_not]

theorem contains_ofClassText_of_ranges :
    Spells "[^x-éz-a-]".toList true
      [.range 'x' 'é', .single 'z', .single '-', .single 'a', .single '-'] ∧
    (ofClassText "[^x-éz-a-]").contains 0x7e = false ∧
    (ofClassText "[^x-éz-a-]").contains 0xc3 = true ∧
    (∀ rest, "x-éz-a-".toList ≠ '^' :: rest) ∧
    (ofClassText ("[^" ++ "x-éz-a-" ++ "]")).contains 0x7a =
      !(ofClassText ("[" ++ "x-éz-a-" ++ "]")).contains 0x7a := by
  have cuts : Cuts ['x', '-', 'é', 'z', '-', 'a', '-']
      [.range 'x' 'é', .single 'z', .single '-', .single 'a', .single '-'] :=
    .range (by decide) (.single (by simp) (.single (by simp) (.single (by simp)
      (.single (by simp) .nil))))
  have text : "[^x-éz-a-]".toList =
      '[' :: ('^' :: ['x', '-', 'é', 'z', '-', 'a', '-']) ++ [']'] := by decide +kernel
  have spells : Spells "[^x-éz-a-]".toList true
      [.range 'x' 'é', .single 'z', .single '-', .single 'a', .single '-'] :=
    ⟨_, _, text ▸ .both _, .complemented _, cuts⟩
  have covered := (contains_ofClassText.1 _).2 _ _ spells 0x7e
  have beyond := (contains_ofClassText.1 _).2 _ _ spells 0xc3
  have inside : "x-éz-a-".toList = ['x', '-', 'é', 'z', '-', 'a', '-'] := by decide +kernel
  have plain : ∀ rest, "x-éz-a-".toList ≠ '^' :: rest := by
    rw [inside]
    simp
  refine ⟨spells, ?_, beyond.2 rfl, plain, contains_ofClassText.2 _ plain 0x7a⟩
  simpa [ClassItem.Covers] using covered

end ByteSet

end ByteRegex
