import ByteRegex.Proofs.Spelling

/-! Bounds read from their text. A text gives bounds if it has one or two numerals between braces, in
order and below 2⁶⁴. Each numeral may have a plus sign before it, and such a sign is all that can be
read here without being documented or found inside a pattern. -/

namespace ByteRegex.Bounds

def Numeral (ds : List Char) (n : Nat) : Prop :=
  ds ≠ [] ∧ (∀ c ∈ ds, c.isDigit = true) ∧ digitsValue ds = n

/-- The bounds that stand between braces. A single number is a least count, with a comma after it or
without one, and two numbers are a least and a greatest count. -/
inductive Denotes : Bounds → List Char → Prop
  | single {ds : List Char} {n : Nat} (least : Numeral ds n) : Denotes (atLeast n) ds
  | comma {ds : List Char} {n : Nat} (least : Numeral ds n) : Denotes (atLeast n) (ds ++ [','])
  | pair {ds es : List Char} {m n : Nat} (least : Numeral ds m) (most : Numeral es n) (h : m ≤ n) :
      Denotes ⟨m, some n, fun _ e => Option.some.inj e ▸ h⟩ (ds ++ ',' :: es)

inductive Signed : List Char → Nat → Prop
  | plain {ds : List Char} {n : Nat} (digits : Numeral ds n) : Signed ds n
  | plus {ds : List Char} {n : Nat} (digits : Numeral ds n) : Signed ('+' :: ds) n

/-- The bounds that are read between braces, where numerals may have signs. -/
inductive ReadFrom : Bounds → List Char → Prop
  | single {ds : List Char} {n : Nat} (least : Signed ds n) : ReadFrom (atLeast n) ds
  | comma {ds : List Char} {n : Nat} (least : Signed ds n) : ReadFrom (atLeast n) (ds ++ [','])
  | pair {ds es : List Char} {m n : Nat} (least : Signed ds m) (most : Signed es n) (h : m ≤ n) :
      ReadFrom ⟨m, some n, fun _ e => Option.some.inj e ▸ h⟩ (ds ++ ',' :: es)

def Fits (b : Bounds) : Prop :=
  b.least < valueLimit ∧ ∀ m, b.most = some m → m < valueLimit

variable {cs ds inside : List Char} {m n : Nat} {b b' : Bounds} {text : String}

theorem Numeral.isBound (h : Numeral ds n) : ∀ c ∈ ds, Token.isBound c = true := by
  intro c member
  simp [Token.isBound, h.2.1 c member]

theorem Numeral.not_mem (h : Numeral ds n) {c : Char} (other : c.isDigit = false) : c ∉ ds :=
  fun member => Bool.false_ne_true (other.symm.trans (h.2.1 c member))

theorem Signed.noComma (h : Signed ds n) : ',' ∉ ds := by
  cases h with
  | plain digits => exact digits.not_mem rfl
  | plus digits => simp [digits.not_mem (c := ',') rfl]

theorem Signed.nonempty (h : Signed ds n) : ds ≠ [] := by
  cases h with
  | plain digits => exact digits.1
  | plus digits => exact List.cons_ne_nil _ _

theorem numeral_iff : (if ds ≠ [] ∧ ds.all Char.isDigit ∧ digitsValue ds < valueLimit
    then some (digitsValue ds) else none) = some n ↔ Numeral ds n ∧ n < valueLimit := by
  rw [Option.ite_none_right_eq_some, Option.some.injEq, List.all_eq_true]
  constructor
  · rintro ⟨⟨nonempty, digits, small⟩, rfl⟩
    exact ⟨⟨nonempty, digits, rfl⟩, small⟩
  · rintro ⟨⟨nonempty, digits, rfl⟩, small⟩
    exact ⟨⟨nonempty, digits, small⟩, rfl⟩

theorem signed_plus_iff : Signed ('+' :: ds) n ↔ Numeral ds n := by
  refine ⟨fun h => ?_, .plus⟩
  cases h with
  | plain digits => exact absurd (List.mem_cons_self ..) (digits.not_mem (c := '+') rfl)
  | plus digits => exact digits

theorem signed_iff (unsigned : ∀ rest, ds ≠ '+' :: rest) : Signed ds n ↔ Numeral ds n := by
  refine ⟨fun h => ?_, .plain⟩
  cases h with
  | plain digits => exact digits
  | plus digits => exact absurd rfl (unsigned _)

theorem number?_eq_some_iff : number? ds = some n ↔ Signed ds n ∧ n < valueLimit := by
  unfold number?
  dsimp only
  split
  next rest => rw [numeral_iff, signed_plus_iff]
  next unsigned => rw [numeral_iff, signed_iff unsigned]

theorem Signed.unique (h : Signed ds m) (h' : Signed ds n) : m = n := by
  cases h with
  | plain digits =>
    have unsigned : ∀ rest, ds ≠ '+' :: rest := by
      rintro rest rfl
      exact digits.not_mem (c := '+') rfl (List.mem_cons_self ..)
    exact digits.2.2.symm.trans ((signed_iff unsigned).1 h').2.2
  | plus digits => exact digits.2.2.symm.trans (signed_plus_iff.1 h').2.2

theorem readFrom_iff : b.ReadFrom cs ↔ match splitAt? ',' cs with
    | none => ∃ n, Signed cs n ∧ b = atLeast n
    | some (low, []) => ∃ n, Signed low n ∧ b = atLeast n
    | some (low, high) => ∃ m n, Signed low m ∧ Signed high n ∧
        ∃ h : m ≤ n, b = ⟨m, some n, fun _ e => Option.some.inj e ▸ h⟩ := by
  constructor
  · intro h
    cases h with
    | single least =>
      rw [splitAt?_eq_none_iff.2 least.noComma]
      exact ⟨_, least, rfl⟩
    | comma least =>
      rw [splitAt?_eq_some_iff.2 ⟨rfl, least.noComma⟩]
      exact ⟨_, least, rfl⟩
    | @pair ds es m n least most order =>
      rw [splitAt?_eq_some_iff.2 ⟨rfl, least.noComma⟩]
      cases es with
      | nil => exact absurd rfl most.nonempty
      | cons => exact ⟨m, n, least, most, order, rfl⟩
  · intro h
    split at h
    next =>
      obtain ⟨n, least, rfl⟩ := h
      exact .single least
    next low parts =>
      obtain ⟨rfl, -⟩ := splitAt?_eq_some_iff.1 parts
      obtain ⟨n, least, rfl⟩ := h
      exact .comma least
    next low high _ parts =>
      obtain ⟨rfl, -⟩ := splitAt?_eq_some_iff.1 parts
      obtain ⟨m, n, least, most, order, rfl⟩ := h
      exact .pair least most order

theorem ReadFrom.unique (h : b.ReadFrom cs) (h' : b'.ReadFrom cs) : b = b' := by
  rw [readFrom_iff] at h h'
  generalize splitAt? ',' cs = parts at h h'
  rcases parts with _ | ⟨low, _ | ⟨c, high⟩⟩
  · obtain ⟨n, least, rfl⟩ := h
    obtain ⟨n', least', rfl⟩ := h'
    rw [least.unique least']
  · obtain ⟨n, least, rfl⟩ := h
    obtain ⟨n', least', rfl⟩ := h'
    rw [least.unique least']
  · obtain ⟨m, n, least, most, order, rfl⟩ := h
    obtain ⟨m', n', least', most', order', rfl⟩ := h'
    cases least.unique least'
    cases most.unique most'
    rfl

theorem fits_atLeast : (atLeast n).Fits ↔ n < valueLimit :=
  ⟨fun h => h.1, fun small => ⟨small, fun _ none => nomatch none⟩⟩

theorem fits_between (order : m ≤ n) :
    Fits ⟨m, some n, fun _ e => Option.some.inj e ▸ order⟩ ↔ m < valueLimit ∧ n < valueLimit := by
  simp [Fits]

theorem between?_eq_some_iff : between? m n = some b ↔
    ∃ h : m ≤ n, b = ⟨m, some n, fun _ e => Option.some.inj e ▸ h⟩ := by
  rw [between?, Option.dite_none_right_eq_some]
  simp only [Option.some.injEq, eq_comm]

theorem map_number?_iff : (number? ds).map atLeast = some b ↔
    (∃ n, Signed ds n ∧ b = atLeast n) ∧ b.Fits := by
  simp only [Option.map_eq_some_iff, number?_eq_some_iff]
  constructor
  · rintro ⟨n, ⟨least, small⟩, rfl⟩
    exact ⟨⟨n, least, rfl⟩, fits_atLeast.2 small⟩
  · rintro ⟨⟨n, least, rfl⟩, fits⟩
    exact ⟨n, ⟨least, fits_atLeast.1 fits⟩, rfl⟩

theorem ofChars?_eq_some_iff : ofChars? cs = some b ↔ b.ReadFrom cs ∧ b.Fits := by
  rw [readFrom_iff, ofChars?]
  rcases splitAt? ',' cs with _ | ⟨low, _ | ⟨c, high⟩⟩
  · exact map_number?_iff
  · exact map_number?_iff
  · simp only [bind, Option.bind_eq_some_iff, number?_eq_some_iff, between?_eq_some_iff]
    constructor
    · rintro ⟨m, ⟨least, small⟩, n, ⟨most, small'⟩, order, rfl⟩
      exact ⟨⟨m, n, least, most, order, rfl⟩, (fits_between order).2 ⟨small, small'⟩⟩
    · rintro ⟨⟨m, n, least, most, order, rfl⟩, fits⟩
      obtain ⟨small, small'⟩ := (fits_between order).1 fits
      exact ⟨m, ⟨least, small⟩, n, ⟨most, small'⟩, order, rfl⟩

theorem denotes_iff : b.Denotes cs ↔ b.ReadFrom cs ∧ '+' ∉ cs := by
  constructor
  · intro h
    cases h with
    | single least => exact ⟨.single (.plain least), least.not_mem rfl⟩
    | comma least =>
      refine ⟨.comma (.plain least), ?_⟩
      simp [least.not_mem (c := '+') rfl]
    | pair least most order =>
      refine ⟨.pair (.plain least) (.plain most) order, ?_⟩
      simp [least.not_mem (c := '+') rfl, most.not_mem (c := '+') rfl]
  · rintro ⟨h, unsigned⟩
    have numeral {ds : List Char} {n : Nat} (signed : Signed ds n) (part : ∀ c ∈ ds, c ∈ cs) :
        Numeral ds n := by
      refine (signed_iff ?_).1 signed
      rintro rest rfl
      exact unsigned (part '+' (List.mem_cons_self ..))
    cases h with
    | single least => exact .single (numeral least fun c member => member)
    | comma least => exact .comma (numeral least fun c member => List.mem_append_left _ member)
    | pair least most order =>
      exact .pair (numeral least fun c member => List.mem_append_left _ member)
        (numeral most fun c member => List.mem_append_right _ (List.mem_cons_of_mem _ member)) order

theorem Denotes.numeric (h : b.Denotes inside) : inside.all Token.isBound = true := by
  rw [List.all_eq_true]
  cases h with
  | single least => exact least.isBound
  | comma least => exact List.forall_mem_append.2 ⟨least.isBound, List.forall_mem_singleton.2 rfl⟩
  | pair least most order =>
    exact List.forall_mem_append.2 ⟨least.isBound, List.forall_mem_cons.2 ⟨rfl, most.isBound⟩⟩

theorem unbrace?_eq_some_iff : unbrace? cs = some inside ↔ cs = '\x7b' :: inside ++ ['\x7d'] := by
  constructor
  · intro h
    unfold unbrace? at h
    split at h
    next rest =>
      obtain ⟨last, result⟩ := Option.ite_none_right_eq_some.1 h
      obtain ⟨ds, rfl⟩ := List.getLast?_eq_some_iff.1 last
      rw [List.dropLast_concat] at result
      cases result
      rfl
    next => cases h
  · rintro rfl
    simp [unbrace?]

theorem ofText_eq_ok_iff {text : String} : ofText text = .ok b ↔
    ∃ inside, text.toList = '\x7b' :: inside ++ ['\x7d'] ∧ b.ReadFrom inside ∧ b.Fits := by
  have read : ofText text = .ok b ↔ (unbrace? text.toList).bind ofChars? = some b := by
    unfold ofText
    split <;> simp [*]
  simp only [read, Option.bind_eq_some_iff, unbrace?_eq_some_iff, ofChars?_eq_some_iff]

theorem Denotes.ofText_eq_ok (h : b.Denotes inside) (fits : b.Fits) :
    ofText (String.ofList ('\x7b' :: inside ++ ['\x7d'])) = .ok b :=
  ofText_eq_ok_iff.2 ⟨inside, String.toList_ofList, (denotes_iff.1 h).1, fits⟩

theorem readFrom_of_ofText (found : ofText (String.ofList ('\x7b' :: inside ++ ['\x7d'])) = .ok b) :
    b.ReadFrom inside := by
  obtain ⟨inside', same, read, -⟩ := ofText_eq_ok_iff.1 found
  rw [String.toList_ofList] at same
  cases List.append_cancel_right same
  exact read

theorem Denotes.eq_of_ofText (h : b.Denotes inside)
    (found : ofText (String.ofList ('\x7b' :: inside ++ ['\x7d'])) = .ok b') : b' = b :=
  (readFrom_of_ofText found).unique (denotes_iff.1 h).1

theorem denotes_of_ofText (numeric : inside.all Token.isBound = true)
    (found : ofText (String.ofList ('\x7b' :: inside ++ ['\x7d'])) = .ok b) : b.Denotes inside := by
  refine denotes_iff.2 ⟨readFrom_of_ofText found, fun plus => ?_⟩
  exact absurd (List.all_eq_true.1 numeric _ plus) (by decide)

theorem fits_of_ofText {text : String} (found : ofText text = .ok b) : b.Fits := by
  obtain ⟨-, -, -, fits⟩ := ofText_eq_ok_iff.1 found
  exact fits

/-- The texts of bounds in the documented forms. -/
def Documented (b : Bounds) (text : String) : Prop :=
  ∃ inside, text.toList = '\x7b' :: inside ++ ['\x7d'] ∧ b.Denotes inside ∧ b.Fits

def Accepted (b : Bounds) (text : String) : Prop :=
  ∃ inside, text.toList = '\x7b' :: inside ++ ['\x7d'] ∧ b.ReadFrom inside ∧ b.Fits

theorem documented_iff : b.Documented text ↔ b.Accepted text ∧ '+' ∉ text.toList := by
  constructor
  · rintro ⟨inside, parts, denotes, fits⟩
    obtain ⟨read, unsigned⟩ := denotes_iff.1 denotes
    exact ⟨⟨inside, parts, read, fits⟩, by simp [parts, unsigned]⟩
  · rintro ⟨⟨inside, parts, read, fits⟩, unsigned⟩
    have unsigned' : '+' ∉ inside := fun member => unsigned (by simp [parts, member])
    exact ⟨inside, parts, denotes_iff.2 ⟨read, unsigned'⟩, fits⟩

theorem ofText_eq_error (h : ∀ b : Bounds, ¬b.Accepted text) :
    ofText text = .error .malformedQuantifier := by
  cases read : ofText text with
  | ok b => exact absurd (ofText_eq_ok_iff.1 read) (h b)
  | error fault =>
    unfold ofText at read
    split at read
    next => cases read
    next => exact read.symm

theorem ofPattern_quantifier_iff : Token.ofPattern text = .ok [.quantifier text, .finish] ↔
    ∃ inside, text.toList = '\x7b' :: inside ++ ['\x7d'] ∧ inside.all Token.isBound = true := by
  constructor
  · intro read
    obtain ⟨us, parts, spells⟩ := Token.ofPattern_eq_ok_iff.1 read
    cases List.append_cancel_right (show [.quantifier text] ++ [.finish] = us ++ [.finish] from parts)
    obtain ⟨inside, same, numeric⟩ := Token.numeric_of_spells spells text (List.mem_cons_self ..)
    exact ⟨inside, by rw [same, String.toList_ofList], numeric⟩
  · rintro ⟨inside, parts, numeric⟩
    have spells := (Token.SpelledBy.bounds numeric).spells
    have same : text = String.ofList ('\x7b' :: inside ++ ['\x7d']) := by
      rw [← parts, String.ofList_toList]
    rw [← parts, Token.ofBounds, ← same] at spells
    exact Token.ofPattern_eq_ok_iff.2 ⟨[.quantifier text], rfl, spells⟩

theorem Documented.ofPattern (h : b.Documented text) :
    Token.ofPattern text = .ok [.quantifier text, .finish] := by
  obtain ⟨inside, parts, denotes, -⟩ := h
  exact ofPattern_quantifier_iff.2 ⟨inside, parts, denotes.numeric⟩

/-- The texts that are read as bounds are the accepted ones, and all others are malformed quantifiers. A
text is read exactly as documented, and only if it is also read inside a pattern, unless it is
accepted for a sign. -/
theorem reads_documented_forms (text : String) :
    (∀ b, ofText text = .ok b ↔ b.Accepted text) ∧
    ((∀ b : Bounds, ¬b.Accepted text) → ofText text = .error .malformedQuantifier) ∧
    (((∀ b, ofText text = .ok b ↔ b.Documented text) ∧
        ((∀ b : Bounds, ¬b.Documented text) → ofText text = .error .malformedQuantifier) ∧
        ∀ b, ofText text = .ok b → Token.ofPattern text = .ok [.quantifier text, .finish]) ↔
      ¬∃ b : Bounds, b.Accepted text ∧ '+' ∈ text.toList) := by
  have accepted (b : Bounds) : ofText text = .ok b ↔ b.Accepted text := ofText_eq_ok_iff
  refine ⟨accepted, ofText_eq_error, ?_, fun unsigned => ?_⟩
  · rintro ⟨documented, -, -⟩ ⟨b, read, plus⟩
    exact (documented_iff.1 ((documented b).1 ((accepted b).2 read))).2 plus
  · have same (b : Bounds) : b.Accepted text ↔ b.Documented text := by
      refine ⟨fun read => documented_iff.2 ⟨read, fun plus => unsigned ⟨b, read, plus⟩⟩, fun h => ?_⟩
      exact (documented_iff.1 h).1
    refine ⟨fun b => (accepted b).trans (same b), fun none => ?_, fun b read => ?_⟩
    · exact ofText_eq_error fun b read => none b ((same b).1 read)
    · exact ((same b).1 ((accepted b).1 read)).ofPattern

theorem reads_documented_forms_of_pair : ∃ b : Bounds, b.least = 3 ∧ b.most = some 18446744073709551615 ∧
    ofText "\x7b03,18446744073709551615\x7d" = .ok b ∧
    Token.ofPattern "\x7b03,18446744073709551615\x7d" =
      .ok [.quantifier "\x7b03,18446744073709551615\x7d", .finish] := by
  have forms := reads_documented_forms "\x7b03,18446744073709551615\x7d"
  have least : Numeral ['0', '3'] 3 := (numeral_iff.1 (by decide)).1
  have most : Numeral "18446744073709551615".toList 18446744073709551615 :=
    (numeral_iff.1 (by decide +kernel)).1
  have parts : "\x7b03,18446744073709551615\x7d".toList =
      '\x7b' :: (['0', '3'] ++ ',' :: "18446744073709551615".toList) ++ ['\x7d'] := by decide +kernel
  have unsigned : '+' ∉ "\x7b03,18446744073709551615\x7d".toList := by decide +kernel
  have read := (forms.1 _).2 ⟨_, parts, .pair (.plain least) (.plain most) (by decide),
    (fits_between (by decide)).2 ⟨by decide, by decide⟩⟩
  exact ⟨_, rfl, rfl, read, (forms.2.2.2 fun ⟨_, _, plus⟩ => unsigned plus).2.2 _ read⟩

/-- A sign is read though no documented form has one and no pattern can be read with it. -/
theorem reads_undocumented_sign :
    ofText "\x7b+3\x7d" = .ok (atLeast 3) ∧ (∀ b : Bounds, ¬b.Documented "\x7b+3\x7d") ∧
      Token.ofPattern "\x7b+3\x7d" = .error ⟨.malformedQuantifier, some 1⟩ := by
  have parts : "\x7b+3\x7d".toList = '\x7b' :: ['+', '3'] ++ ['\x7d'] := by decide +kernel
  have signed : Signed ['+', '3'] 3 := .plus (numeral_iff.1 (by decide)).1
  refine ⟨ofText_eq_ok_iff.2 ⟨_, parts, .single signed, fits_atLeast.2 (by decide)⟩, ?_, ?_⟩
  · intro b documented
    exact (documented_iff.1 documented).2 (by simp [parts])
  · rw [Token.ofPattern, parts, List.cons_append, Token.scan]
    rfl

end ByteRegex.Bounds
