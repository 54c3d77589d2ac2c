import ByteRegex.Proofs.Spelling

/-! Tokens written as a pattern again. A literal that would be read as something else carries a backslash,
and every other token is written as its text. Reading undoes this for all tokens that have a text at all,
and those are the tokens that reading returns. -/

namespace ByteRegex.Token

/-- The characters that are not read as literals. A closing bracket or brace without an opening one is. -/
def signs : List Char :=
  ['\\', '[', '\x7b', '*', '+', '?', '(', ')', '|', '^', '$', '.']

def spelling : Token → String
  | operand (.literal c) => if c ∈ signs then "\\" ++ String.singleton c else String.singleton c
  | t => t.text

def render (ts : List Token) : String :=
  String.join (ts.map spelling)

def Lexical : Token → Prop
  | operand (.charClass text) => ∃ s : String, text = "[" ++ s ++ "]" ∧ ']' ∉ s.toList
  | quantifier text =>
    ∃ s : String, text = "\x7b" ++ s ++ "\x7d" ∧ ∀ c ∈ s.toList, c.isDigit = true ∨ c = ','
  | finish => False
  | _ => True

/-- Tokens that can be written, and the end after them. -/
def WellFormed (ts : List Token) : Prop :=
  ∃ us, ts = us ++ [finish] ∧ ∀ t ∈ us, t.Lexical

variable {c : Char} {t : Token} {ts us : List Token} {word cs : List Char}

theorem ofEscaped_sign (h : c ∈ signs) : ofEscaped c = operand (.literal c) := by
  have all : ∀ d ∈ signs, shorthand? d = none := by simp [signs, shorthand?]
  rw [ofEscaped, all c h]

theorem ofChar_of_not_sign (h : c ∉ signs) : ofChar c = operand (.literal c) := by
  unfold ofChar
  split <;> first | exact absurd (by decide) h | rfl

theorem spelledBy_literal (c : Char) :
    (operand (.literal c)).SpelledBy (spelling (operand (.literal c))).toList := by
  rw [spelling]
  split
  case isTrue sign =>
    rw [String.toList_append, String.toList_singleton, ← ofEscaped_sign sign]
    exact .escaped c
  case isFalse other =>
    have plain : c ≠ '\\' ∧ c ≠ '[' ∧ c ≠ '\x7b' := by
      refine ⟨?_, ?_, ?_⟩ <;> rintro rfl <;> exact other (by decide)
    rw [String.toList_singleton, ← ofChar_of_not_sign other]
    exact .plain plain

theorem ofClass_toList (s : String) : ofClass s.toList = operand (.charClass ("[" ++ s ++ "]")) := by
  have text : String.ofList ('[' :: s.toList ++ [']']) = "[" ++ s ++ "]" :=
    String.toList_inj.1 (by simp)
  rw [ofClass, text]

theorem ofBounds_toList (s : String) : ofBounds s.toList = quantifier ("\x7b" ++ s ++ "\x7d") := by
  have text : String.ofList ('\x7b' :: s.toList ++ ['\x7d']) = "\x7b" ++ s ++ "\x7d" :=
    String.toList_inj.1 (by simp)
  rw [ofBounds, text]

theorem spelledBy_spelling (h : t.Lexical) : t.SpelledBy t.spelling.toList := by
  cases t with
  | operand item =>
    cases item with
    | literal c => exact spelledBy_literal c
    | charClass text =>
      obtain ⟨s, rfl, single⟩ := h
      have enclosed := SpelledBy.charClass single
      rw [ofClass_toList] at enclosed
      simpa [spelling, text] using enclosed
    | wildcard => exact .plain (c := '.') (by decide)
    | anchor place =>
      cases place with
      | textStart => exact .plain (c := '^') (by decide)
      | textEnd => exact .plain (c := '$') (by decide)
  | repetition op =>
    cases op with
    | star => exact .plain (c := '*') (by decide)
    | plus => exact .plain (c := '+') (by decide)
    | option => exact .plain (c := '?') (by decide)
  | quantifier text =>
    obtain ⟨s, rfl, digits⟩ := h
    have numeric : s.toList.all isBound = true := by simpa [isBound] using digits
    have enclosed := SpelledBy.bounds numeric
    rw [ofBounds_toList] at enclosed
    simpa [spelling, text] using enclosed
  | groupOpen => exact .plain (c := '(') (by decide)
  | groupClose => exact .plain (c := ')') (by decide)
  | alternation => exact .plain (c := '|') (by decide)
  | finish => exact h.elim

theorem lexical_of_shorthand {text : String} (h : shorthand? c = some text) :
    (operand (.charClass text)).Lexical := by
  unfold shorthand? at h
  split at h <;> cases h
  · exact ⟨"0-9", rfl, by decide⟩
  · exact ⟨"^0-9", rfl, by decide⟩
  · exact ⟨"A-Za-z0-9_", rfl, by decide⟩
  · exact ⟨"^A-Za-z0-9_", rfl, by decide⟩
  · exact ⟨" \t\r\n\x0c", rfl, by decide⟩
  · exact ⟨"^ \t\r\n\x0c", rfl, by decide⟩

theorem lexical_of_spelledBy (h : t.SpelledBy word) : t.Lexical := by
  cases h with
  | escaped c =>
    unfold ofEscaped
    split
    next text found => exact lexical_of_shorthand found
    next => trivial
  | @charClass inside single =>
    rw [← String.toList_ofList (l := inside), ofClass_toList]
    exact ⟨String.ofList inside, rfl, by rwa [String.toList_ofList]⟩
  | @bounds inside numeric =>
    rw [← String.toList_ofList (l := inside), ofBounds_toList]
    refine ⟨String.ofList inside, rfl, ?_⟩
    simpa [isBound] using numeric
  | plain other =>
    unfold ofChar
    split <;> trivial

theorem lexical_of_spells (h : Spells cs ts) : ∀ t ∈ ts, t.Lexical := by
  induction h with
  | nil => exact List.forall_mem_nil _
  | cons first rest ih => exact List.forall_mem_cons.2 ⟨lexical_of_spelledBy first, ih⟩

theorem spells_render (h : ∀ t ∈ ts, t.Lexical) : Spells (render ts).toList ts := by
  rw [render, String.toList_join]
  induction ts with
  | nil => exact .nil
  | cons t ts ih =>
    rw [List.forall_mem_cons] at h
    exact .cons (spelledBy_spelling h.1) (ih h.2)

theorem render_append_finish (ts : List Token) : render (ts ++ [finish]) = render ts := by
  apply String.toList_inj.1
  simp [render, String.toList_join, spelling, text]

/-- Reading undoes writing for well-formed tokens, and only these are ever read, so what is read from a
pattern stays the same when it is written and read again. -/
theorem ofPattern_render :
    (∀ ts, WellFormed ts → ofPattern (render ts) = .ok ts) ∧
    ∀ pattern ts, ofPattern pattern = .ok ts → WellFormed ts ∧ ofPattern (render ts) = .ok ts := by
  have written : ∀ ts, WellFormed ts → ofPattern (render ts) = .ok ts := by
    rintro _ ⟨us, rfl, lexical⟩
    rw [render_append_finish]
    exact ofPattern_eq_ok_iff.2 ⟨us, rfl, spells_render lexical⟩
  refine ⟨written, fun pattern ts read => ?_⟩
  obtain ⟨us, rfl, spells⟩ := ofPattern_eq_ok_iff.1 read
  have formed : WellFormed (us ++ [finish]) := ⟨us, rfl, lexical_of_spells spells⟩
  exact ⟨formed, written _ formed⟩

theorem ofPattern_render_of_brackets :
    (∃ us, us = [operand (.literal '['), operand (.charClass "[a[]"), quantifier "\x7b,2\x7d",
        operand (.literal ']')] ∧ WellFormed (us ++ [finish]) ∧
      render (us ++ [finish]) = "\\[[a[]\x7b,2\x7d]" ∧
      ofPattern (render (us ++ [finish])) = .ok (us ++ [finish])) ∧
    ∃ ts, ofPattern "\\wé\\*" = .ok ts ∧ WellFormed ts ∧ ofPattern (render ts) = .ok ts := by
  constructor
  · refine ⟨_, rfl, ?_⟩
    have formed : WellFormed ([operand (.literal '['), operand (.charClass "[a[]"),
        quantifier "\x7b,2\x7d", operand (.literal ']')] ++ [finish]) := by
      refine ⟨_, rfl, ?_⟩
      have numeric : ∀ c ∈ ",2".toList, c.isDigit = true ∨ c = ',' := by simp
      simp only [List.forall_mem_cons]
      exact ⟨trivial, ⟨"a[", rfl, by decide⟩, ⟨",2", rfl, numeric⟩, trivial, List.forall_mem_nil _⟩
    exact ⟨formed, by decide +kernel, ofPattern_render.1 _ formed⟩
  · have reads : (ofPattern "\\wé\\*").isOk = true := by decide +kernel
    obtain ⟨ts, read⟩ := exists_of_isOk reads
    exact ⟨ts, read, ofPattern_render.2 _ ts read⟩

end ByteRegex.Token
