import ByteRegex.Proofs.Spelling

/-! Where reading a pattern stops. Tokens are read one by one, so a pattern is read in parts as it is read
as a whole, and a fault in a later part is only moved by the bytes before it. A fault is found at a sign
that begins a token which does not end, or inside braces at the first character that belongs to no
bounds. All that is before the token with the fault can be read. -/

namespace ByteRegex

theorem Utf8.size_toList (s : String) : size s.toList = s.utf8ByteSize := by
  rw [← length_encode, ← String.ofList_toList (s := s), String.toList_ofList, String.utf8ByteSize,
    String.toByteArray_ofList, List.utf8Encode, List.size_toByteArray]
  rfl

namespace Token

def Readable (cs : List Char) : Prop :=
  ∃ ts, ofPattern (String.ofList cs) = .ok ts

/-- Whether a fault is found at a character, given the texts before and after it. -/
inductive FoundAt : Fault → List Char → Char → List Char → Prop
  | escape {before : List Char} (readable : Readable before) : FoundAt .trailingEscape before '\\' []
  | charClass {before after : List Char} (readable : Readable before) (unclosed : ']' ∉ after) :
      FoundAt .unclosedClass before '[' after
  | bounds {before after : List Char} (readable : Readable before) (unclosed : '\x7d' ∉ after) :
      FoundAt .malformedQuantifier before '\x7b' after
  | bound {before digits others after : List Char} {c : Char} (readable : Readable before)
      (numeric : ∀ d ∈ digits, isBound d = true) (other : isBound c = false)
      (closed : '\x7d' ∉ c :: others) :
      FoundAt .malformedQuantifier (before ++ '\x7b' :: digits) c (others ++ '\x7d' :: after)

variable {cs word before after digits others : List Char} {c : Char} {t : Token} {ts us : List Token}
  {offset : Nat} {fault : Fault} {e : PatternError}

theorem readable_iff : Readable cs ↔ ∃ us, Spells cs us := by
  simp only [Readable, ofPattern_eq_ok_iff, String.toList_ofList]
  constructor
  · rintro ⟨_, us, -, spells⟩
    exact ⟨us, spells⟩
  · rintro ⟨us, spells⟩
    exact ⟨_, us, rfl, spells⟩

theorem readable_nil : Readable [] :=
  readable_iff.2 ⟨[], .nil⟩

theorem SpelledBy.readable (h : t.SpelledBy word) (h' : Readable cs) : Readable (word ++ cs) := by
  obtain ⟨us, spells⟩ := readable_iff.1 h'
  exact readable_iff.2 ⟨t :: us, .cons h spells⟩

theorem SpelledBy.foundAt (h : t.SpelledBy word) (h' : FoundAt fault before c after) :
    FoundAt fault (word ++ before) c after := by
  cases h' with
  | escape readable => exact .escape (h.readable readable)
  | charClass readable unclosed => exact .charClass (h.readable readable) unclosed
  | bounds readable unclosed => exact .bounds (h.readable readable) unclosed
  | bound readable numeric other closed =>
    rw [← List.append_assoc]
    exact .bound (h.readable readable) numeric other closed

def Located (offset : Nat) (cs : List Char) (e : PatternError) : Prop :=
  ∃ before c after, cs = before ++ c :: after ∧ e.offset = some (offset + Utf8.size before) ∧
    FoundAt e.fault before c after

theorem Located.first (h : FoundAt fault [] c after) : Located offset (c :: after) ⟨fault, some offset⟩ :=
  ⟨[], c, after, rfl, rfl, h⟩

theorem SpelledBy.located (h : t.SpelledBy word) (h' : Located (offset + Utf8.size word) cs e) :
    Located offset (word ++ cs) e := by
  obtain ⟨before, c, after, rfl, found, fault⟩ := h'
  refine ⟨word ++ before, c, after, by simp, ?_, h.foundAt fault⟩
  rw [found, Utf8.size_append, Nat.add_assoc]

theorem exists_unbound (h : ¬cs.all isBound = true) : ∃ digits c others, cs = digits ++ c :: others ∧
    (∀ d ∈ digits, isBound d = true) ∧ isBound c = false := by
  have some : (cs.find? fun c => !isBound c).isSome = true := by simpa [List.find?_isSome] using h
  obtain ⟨c, found⟩ := Option.isSome_iff_exists.1 some
  obtain ⟨other, digits, others, rfl, numeric⟩ := List.find?_eq_some_iff_append.1 found
  exact ⟨digits, c, others, rfl, by simpa using numeric, by simpa using other⟩

theorem takeWhile_isBound (numeric : ∀ d ∈ digits, isBound d = true) (other : isBound c = false) :
    (digits ++ c :: others).takeWhile isBound = digits := by
  rw [List.takeWhile_append_of_pos numeric, List.takeWhile_cons_of_neg (by simp [other]), List.append_nil]

theorem located_of_scan (h : scan offset cs = .error e) : Located offset cs e := by
  fun_induction scan offset cs with
  | case1 offset => cases h
  | case2 offset =>
    cases h
    exact .first (.escape readable_nil)
  | case3 offset c rest ih =>
    exact (SpelledBy.escaped c).located (offset_escaped c ▸ ih (error_of_map h))
  | case4 offset rest closed =>
    cases h
    exact .first (.charClass readable_nil (splitAt?_eq_none_iff.1 closed))
  | case5 offset rest inside rest' closed ih =>
    obtain ⟨rfl, single⟩ := splitAt?_eq_some_iff.1 closed
    have later : Located (offset + Utf8.size ('[' :: inside ++ [']'])) rest' e := by
      rw [offset_enclosed rfl rfl]
      exact ih (error_of_map h)
    simpa using (SpelledBy.charClass single).located later
  | case6 offset rest closed =>
    cases h
    exact .first (.bounds readable_nil (splitAt?_eq_none_iff.1 closed))
  | case7 offset rest inside rest' closed numeric ih =>
    obtain ⟨rfl, -⟩ := splitAt?_eq_some_iff.1 closed
    have later : Located (offset + Utf8.size ('\x7b' :: inside ++ ['\x7d'])) rest' e := by
      rw [offset_enclosed rfl rfl]
      exact ih (error_of_map h)
    simpa using (SpelledBy.bounds numeric).located later
  | case8 offset rest inside rest' closed other =>
    cases h
    obtain ⟨rfl, single⟩ := splitAt?_eq_some_iff.1 closed
    -- the fault is at the first character that no bounds can have
    obtain ⟨digits, c, others, rfl, numeric, unbound⟩ := exists_unbound other
    have closed' : '\x7d' ∉ c :: others := fun member => single (List.mem_append_right _ member)
    refine ⟨'\x7b' :: digits, c, others ++ '\x7d' :: rest', by simp, ?_,
      .bound readable_nil numeric unbound closed'⟩
    rw [takeWhile_isBound numeric unbound, Utf8.size_cons, ← Nat.add_assoc]
    rfl
  | case9 offset c rest noEscape noClass noBounds ih =>
    exact (SpelledBy.plain ⟨noEscape, noClass, noBounds⟩).located (ih (error_of_map h))

theorem scan_unclosed_class (unclosed : ']' ∉ after) (offset : Nat) :
    scan offset ('[' :: after) = .error ⟨.unclosedClass, some offset⟩ := by
  have none := splitAt?_eq_none_iff.2 unclosed
  rw [scan]
  split
  next => rfl
  next found => cases none.symm.trans found

theorem scan_unclosed_bounds (unclosed : '\x7d' ∉ after) (offset : Nat) :
    scan offset ('\x7b' :: after) = .error ⟨.malformedQuantifier, some offset⟩ := by
  have none := splitAt?_eq_none_iff.2 unclosed
  rw [scan]
  split
  next => rfl
  next found => cases none.symm.trans found

theorem scan_unbound (numeric : ∀ d ∈ digits, isBound d = true) (other : isBound c = false)
    (closed : '\x7d' ∉ c :: others) (offset : Nat) :
    scan offset ('\x7b' :: (digits ++ c :: (others ++ '\x7d' :: after))) =
      .error ⟨.malformedQuantifier, some (offset + 1 + Utf8.size digits)⟩ := by
  have single : '\x7d' ∉ digits ++ c :: others :=
    List.not_mem_append (fun member => absurd (numeric _ member) (by decide)) closed
  have found : splitAt? '\x7d' (digits ++ c :: (others ++ '\x7d' :: after)) =
      some (digits ++ c :: others, after) := splitAt?_eq_some_iff.2 ⟨by simp, single⟩
  have notAll : ¬(digits ++ c :: others).all isBound = true := by simp [other]
  rw [scan]
  split
  next none => cases none.symm.trans found
  next inside rest found' =>
    cases found.symm.trans found'
    rw [if_neg notAll, takeWhile_isBound numeric other]

theorem scan_of_foundAt (h : FoundAt fault before c after) (offset : Nat) :
    scan offset (before ++ c :: after) = .error ⟨fault, some (offset + Utf8.size before)⟩ := by
  cases h with
  | escape readable =>
    obtain ⟨us, spells⟩ := readable_iff.1 readable
    rw [scan_append_of_spells spells, scan]
    rfl
  | charClass readable unclosed =>
    obtain ⟨us, spells⟩ := readable_iff.1 readable
    rw [scan_append_of_spells spells, scan_unclosed_class unclosed]
    rfl
  | bounds readable unclosed =>
    obtain ⟨us, spells⟩ := readable_iff.1 readable
    rw [scan_append_of_spells spells, scan_unclosed_bounds unclosed]
    rfl
  | @bound before digits others after c readable numeric other closed =>
    obtain ⟨us, spells⟩ := readable_iff.1 readable
    have brace : Utf8.size (before ++ '\x7b' :: digits) = Utf8.size before + 1 + Utf8.size digits := by
      rw [Utf8.size_append, Utf8.size_cons, Nat.add_assoc]
      rfl
    rw [List.append_assoc, List.cons_append, scan_append_of_spells spells,
      scan_unbound numeric other closed, brace, ← Nat.add_assoc, ← Nat.add_assoc]
    rfl

theorem scan_eq_error_iff : scan offset cs = .error e ↔ Located offset cs e := by
  refine ⟨located_of_scan, ?_⟩
  rintro ⟨before, c, after, rfl, found, fault⟩
  obtain ⟨_, _⟩ := e
  rw [scan_of_foundAt fault, ← found]

/-- Reading goes part by part: after a pattern that can be read, another one is read as it is read alone,
and its fault is moved by the bytes before it. A pattern cannot be read exactly if a fault is found at one
of its characters, and the offset tells the bytes before that character. -/
theorem ofPattern_append :
    (∀ p q ts, ofPattern p = .ok ts → ∃ us, ts = us ++ [finish] ∧
      (∀ vs, ofPattern q = .ok vs → ofPattern (p ++ q) = .ok (us ++ vs)) ∧
      ∀ e, ofPattern q = .error e → ∃ n, e.offset = some n ∧
        ofPattern (p ++ q) = .error ⟨e.fault, some (n + p.utf8ByteSize)⟩) ∧
    ∀ (p : String) (e : PatternError), ofPattern p = .error e ↔ ∃ before c after,
      p.toList = before ++ c :: after ∧ e.offset = some (Utf8.size before) ∧
        FoundAt e.fault before c after := by
  refine ⟨fun p q ts read => ?_, fun p e => ?_⟩
  · obtain ⟨us, rfl, spells⟩ := ofPattern_eq_ok_iff.1 read
    have joined : ofPattern (p ++ q) = (scan p.utf8ByteSize q.toList).map (us ++ ·) := by
      rw [ofPattern, String.toList_append, scan_append_of_spells spells, Nat.zero_add, Utf8.size_toList]
    refine ⟨us, rfl, fun vs read' => ?_, fun e refused => ?_⟩
    · obtain ⟨ws, rfl, spells'⟩ := ofPattern_eq_ok_iff.1 read'
      rw [joined, scan_of_spells spells']
      rfl
    · obtain ⟨before, c, after, text, found, fault⟩ := scan_eq_error_iff.1 refused
      refine ⟨_, found, ?_⟩
      rw [joined, text, scan_of_foundAt fault, Nat.zero_add, Nat.add_comm]
      rfl
  · rw [ofPattern, scan_eq_error_iff]
    simp only [Located, Nat.zero_add]

theorem ofPattern_append_of_class :
    (∃ us vs, ofPattern "é[a]" = .ok (us ++ [finish]) ∧ ofPattern "b*" = .ok vs ∧
      ofPattern ("é[a]" ++ "b*") = .ok (us ++ vs)) ∧
    ofPattern "b\x7b1;2\x7d" = .error ⟨.malformedQuantifier, some 3⟩ ∧
    ofPattern ("é[a]" ++ "b\x7b1;2\x7d") = .error ⟨.malformedQuantifier, some (3 + 5)⟩ := by
  have readable : (ofPattern "é[a]").isOk = true := by decide +kernel
  have readable' : (ofPattern "b*").isOk = true := by decide +kernel
  obtain ⟨ts, read⟩ := exists_of_isOk readable
  obtain ⟨vs, read'⟩ := exists_of_isOk readable'
  have letter : Readable ['b'] := (SpelledBy.plain (c := 'b') (by decide)).readable readable_nil
  have fault : FoundAt .malformedQuantifier (['b'] ++ '\x7b' :: ['1']) ';' (['2'] ++ '\x7d' :: []) :=
    .bound letter (List.forall_mem_singleton.2 rfl) rfl (by decide)
  have refused : ofPattern "b\x7b1;2\x7d" = .error ⟨.malformedQuantifier, some 3⟩ :=
    (ofPattern_append.2 _ _).2 ⟨_, _, _, by decide, rfl, fault⟩
  obtain ⟨us, rfl, follows, -⟩ := ofPattern_append.1 "é[a]" "b*" ts read
  obtain ⟨_, -, -, moved⟩ := ofPattern_append.1 "é[a]" "b\x7b1;2\x7d" _ read
  obtain ⟨n, offset, refused'⟩ := moved _ refused
  cases offset
  exact ⟨⟨us, vs, read, read', follows vs read'⟩, refused, refused'⟩

end Token

end ByteRegex
