import ByteRegex.Pattern.Bounds
import ByteRegex.Pattern.Scan

/-! Which texts stand for which tokens. The tokens of a pattern are those that the pattern spells one
after the other, so a pattern spells one list of tokens at most. -/

namespace ByteRegex

namespace Token

inductive SpelledBy : Token → List Char → Prop
  | escaped (c : Char) : SpelledBy (ofEscaped c) ['\\', c]
  | charClass {inside : List Char} (single : ']' ∉ inside) :
      SpelledBy (ofClass inside) ('[' :: inside ++ [']'])
  | bounds {inside : List Char} (numeric : inside.all isBound = true) :
      SpelledBy (ofBounds inside) ('\x7b' :: inside ++ ['\x7d'])
  | plain {c : Char} (other : c ≠ '\\' ∧ c ≠ '[' ∧ c ≠ '\x7b') : SpelledBy (ofChar c) [c]

inductive Spells : List Char → List Token → Prop
  | nil : Spells [] []
  | cons {word cs : List Char} {t : Token} {ts : List Token} (first : t.SpelledBy word)
      (rest : Spells cs ts) : Spells (word ++ cs) (t :: ts)

variable {cs word : List Char} {t : Token} {ts : List Token}

theorem spells_of_scan {offset : Nat} (h : scan offset cs = .ok ts) :
    ∃ us, ts = us ++ [finish] ∧ Spells cs us := by
  fun_induction scan offset cs generalizing ts with
  | case1 offset =>
    cases h
    exact ⟨[], rfl, .nil⟩
  | case2 offset => cases h
  | case3 offset c rest ih =>
    obtain ⟨vs, done, rfl⟩ := ok_of_map h
    obtain ⟨us, rfl, spells⟩ := ih done
    exact ⟨_ :: us, rfl, .cons (.escaped c) spells⟩
  | case4 offset rest closed => cases h
  | case5 offset rest inside rest' closed ih =>
    obtain ⟨vs, done, rfl⟩ := ok_of_map h
    obtain ⟨us, rfl, spells⟩ := ih done
    obtain ⟨rfl, single⟩ := splitAt?_eq_some_iff.1 closed
    refine ⟨_ :: us, rfl, ?_⟩
    simpa using Spells.cons (.charClass single) spells
  | case6 offset rest closed => cases h
  | case7 offset rest inside rest' closed numeric ih =>
    obtain ⟨vs, done, rfl⟩ := ok_of_map h
    obtain ⟨us, rfl, spells⟩ := ih done
    obtain ⟨rfl, -⟩ := splitAt?_eq_some_iff.1 closed
    refine ⟨_ :: us, rfl, ?_⟩
    simpa using Spells.cons (.bounds numeric) spells
  | case8 offset rest inside rest' closed other => cases h
  | case9 offset c rest noEscape noClass noBounds ih =>
    obtain ⟨vs, done, rfl⟩ := ok_of_map h
    obtain ⟨us, rfl, spells⟩ := ih done
    exact ⟨_ :: us, rfl, .cons (.plain ⟨noEscape, noClass, noBounds⟩) spells⟩

theorem offset_enclosed {opening closing : Char} {inside : List Char} {offset : Nat}
    (first : opening.utf8Size = 1) (last : closing.utf8Size = 1) :
    offset + Utf8.size (opening :: inside ++ [closing]) = offset + 2 + Utf8.size inside := by
  simp only [List.cons_append, Utf8.size_cons, Utf8.size_append, Utf8.size_nil, first, last]
  omega

theorem offset_escaped {offset : Nat} (c : Char) :
    offset + Utf8.size ['\\', c] = offset + 1 + c.utf8Size := by
  rw [Utf8.size_cons, Utf8.size_cons, Utf8.size_nil, Nat.add_assoc]
  rfl

/-- A text of a token at the beginning of a pattern is read as that token, and reading goes on after
the bytes of the text. -/
theorem scan_append (h : t.SpelledBy word) (offset : Nat) (cs : List Char) :
    scan offset (word ++ cs) = (scan (offset + Utf8.size word) cs).map (t :: ·) := by
  cases h with
  | escaped c =>
    rw [List.cons_append, List.cons_append, scan, offset_escaped]
    rfl
  | @charClass inside single =>
    have parts : '[' :: inside ++ [']'] ++ cs = '[' :: (inside ++ ']' :: cs) := by simp
    -- the first bracket is the one that ends the text
    have found : splitAt? ']' (inside ++ ']' :: cs) = some (inside, cs) :=
      splitAt?_eq_some_iff.2 ⟨rfl, single⟩
    rw [parts, scan, offset_enclosed rfl rfl]
    split
    next closed => cases found.symm.trans closed
    next closed =>
      cases found.symm.trans closed
      rfl
  | @bounds inside numeric =>
    have parts : '\x7b' :: inside ++ ['\x7d'] ++ cs = '\x7b' :: (inside ++ '\x7d' :: cs) := by simp
    have single : '\x7d' ∉ inside := fun member =>
      absurd (List.all_eq_true.1 numeric _ member) (by decide)
    have found : splitAt? '\x7d' (inside ++ '\x7d' :: cs) = some (inside, cs) :=
      splitAt?_eq_some_iff.2 ⟨rfl, single⟩
    rw [parts, scan, offset_enclosed rfl rfl]
    split
    next closed => cases found.symm.trans closed
    next closed =>
      cases found.symm.trans closed
      rw [if_pos numeric]
  | @plain c other =>
    obtain ⟨noEscape, noClass, noBounds⟩ := other
    have bytes : offset + Utf8.size [c] = offset + c.utf8Size := rfl
    rw [List.singleton_append, scan, bytes]
    · exact noEscape
    · exact noClass
    · exact noBounds

theorem scan_append_of_spells (h : Spells cs ts) (offset : Nat) (ds : List Char) :
    scan offset (cs ++ ds) = (scan (offset + Utf8.size cs) ds).map (ts ++ ·) := by
  induction h generalizing offset with
  | nil =>
    simp only [List.nil_append, Utf8.size_nil, Nat.add_zero]
    cases scan offset ds <;> rfl
  | @cons word cs t ts first rest ih =>
    rw [List.append_assoc, scan_append first, ih, Utf8.size_append, Nat.add_assoc]
    cases scan (offset + (Utf8.size word + Utf8.size cs)) ds <;> rfl

theorem scan_of_spells (h : Spells cs ts) (offset : Nat) : scan offset cs = .ok (ts ++ [finish]) := by
  have alone := scan_append_of_spells h offset []
  rwa [List.append_nil, scan] at alone

theorem ofPattern_eq_ok_iff {pattern : String} :
    ofPattern pattern = .ok ts ↔ ∃ us, ts = us ++ [finish] ∧ Spells pattern.toList us := by
  constructor
  · exact spells_of_scan
  · rintro ⟨us, rfl, spells⟩
    exact scan_of_spells spells 0

theorem spells_unique {us : List Token} (h : Spells cs ts) (h' : Spells cs us) : ts = us := by
  have same := (scan_of_spells h 0).symm.trans (scan_of_spells h' 0)
  exact List.append_cancel_right (Except.ok.inj same)

theorem Spells.append {ds : List Char} {us : List Token} (h : Spells cs ts) (h' : Spells ds us) :
    Spells (cs ++ ds) (ts ++ us) := by
  induction h with
  | nil => exact h'
  | cons first rest ih =>
    rw [List.append_assoc]
    exact .cons first ih

theorem SpelledBy.spells (h : t.SpelledBy word) : Spells word [t] := by
  have alone := Spells.cons h .nil
  rwa [List.append_nil] at alone

theorem finish_not_mem (h : Spells cs ts) : finish ∉ ts := by
  induction h with
  | nil => exact List.not_mem_nil
  | @cons word cs t ts first rest ih =>
    have other : t ≠ finish := by
      rintro rfl
      generalize made : finish = t at first
      cases first with
      | escaped c =>
        unfold ofEscaped at made
        split at made <;> cases made
      | charClass | bounds => cases made
      | plain other =>
        unfold ofChar at made
        split at made <;> cases made
    simp [Ne.symm other, ih]

/-- Whether every quantifier has only digits and commas between its braces. -/
def Numeric (ts : List Token) : Prop :=
  ∀ text, quantifier text ∈ ts → ∃ inside : List Char,
    text = String.ofList ('\x7b' :: inside ++ ['\x7d']) ∧ inside.all isBound = true

theorem numeric_of_spells (h : Spells cs ts) : Numeric ts := by
  intro text member
  induction h with
  | nil => cases member
  | cons first rest ih =>
    obtain _ | ⟨_, later⟩ := member
    · generalize made : quantifier text = t at first
      cases first with
      | escaped c =>
        unfold ofEscaped at made
        split at made <;> cases made
      | charClass single => cases made
      | bounds numeric =>
        cases made
        exact ⟨_, rfl, numeric⟩
      | plain other =>
        unfold ofChar at made
        split at made <;> cases made
    · exact ih later

end Token

end ByteRegex
