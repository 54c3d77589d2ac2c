import ByteRegex.Proofs.Answers

/-! Patterns that are only text, or a text with a backslash before every character that could mean more
than itself. Their tokens are literals, whose expression spans the places where the bytes of the text
stand, so comparing texts finds what the automaton finds. -/

namespace ByteRegex

open Relation

def Utf8.Spans (haystack : List UInt8) (cs : List Char) (i j : Nat) : Prop :=
  i ≤ haystack.length ∧ encode cs <+: haystack.drop i ∧ j = i + size cs

def Token.literals (cs : List Char) : List Token :=
  cs.map fun c => .operand (.literal c)

def Literal.quoteChar (c : Char) : List Char :=
  if c ∈ metacharacters then ['\\', c] else [c]

def Literal.quote (text : String) : String :=
  String.ofList (text.toList.flatMap quoteChar)

namespace Utf8

variable {haystack : List UInt8} {cs ds : List Char} {c : Char}

theorem spans_nil : Spans haystack [] = Still haystack := by
  ext i j
  constructor
  · rintro ⟨bound, -, rfl⟩
    exact ⟨rfl, bound⟩
  · rintro ⟨rfl, bound⟩
    exact ⟨bound, List.nil_prefix, rfl⟩

theorem spans_cons : Spans haystack (c :: cs) =
    Comp ((Operand.literal c).Spans haystack) (Spans haystack cs) := by
  have bytes : encode (c :: cs) = String.utf8EncodeChar c ++ encode cs := List.flatMap_cons
  ext i j
  constructor
  · rintro ⟨bound, ⟨after, here⟩, rfl⟩
    rw [bytes, List.append_assoc] at here
    have rest : haystack.drop (i + c.utf8Size) = encode cs ++ after := by
      rw [← List.drop_drop, ← here, List.drop_left' (String.length_utf8EncodeChar c)]
    have enough := congrArg List.length here
    simp only [List.length_append, List.length_drop, String.length_utf8EncodeChar] at enough
    refine ⟨i + c.utf8Size, ⟨⟨_, here⟩, rfl⟩, by omega, ⟨after, rest.symm⟩, ?_⟩
    rw [size_cons, Nat.add_assoc]
  · rintro ⟨k, ⟨⟨before, here⟩, place⟩, bound, ⟨after, there⟩, rfl⟩
    have next : k = i + c.utf8Size := place
    subst next
    have rest : before = encode cs ++ after := by
      rw [there, ← List.drop_drop, ← here, List.drop_left' (String.length_utf8EncodeChar c)]
    refine ⟨Nat.le_trans (Nat.le_add_right _ _) bound, ⟨after, ?_⟩, ?_⟩
    · rw [bytes, List.append_assoc, ← rest, here]
    · rw [size_cons, Nat.add_assoc]

theorem spans_whole : Spans haystack cs 0 haystack.length ↔ haystack = encode cs := by
  constructor
  · rintro ⟨-, here, length⟩
    rw [Nat.zero_add, ← length_encode] at length
    exact (here.eq_of_length length.symm).symm
  · rintro rfl
    exact ⟨Nat.zero_le _, List.prefix_rfl, by rw [length_encode, Nat.zero_add]⟩

theorem exists_spans : (∃ i j, Spans haystack cs i j) ↔ encode cs <:+: haystack := by
  constructor
  · rintro ⟨i, j, -, here, -⟩
    exact here.isInfix.trans (List.drop_suffix i haystack).isInfix
  · rintro ⟨before, after, rfl⟩
    refine ⟨before.length, _, by simp, ?_, rfl⟩
    rw [List.append_assoc, List.drop_left]
    exact List.prefix_append _ _

end Utf8

/-- Whether bytes are all of a haystack, or stand next to each other anywhere in it. -/
def MatchMode.Found (needle haystack : List UInt8) : MatchMode → Prop
  | full => haystack = needle
  | substring => needle <:+: haystack

theorem MatchMode.found_iff_finds (mode : MatchMode) (cs : List Char) (haystack : List UInt8) :
    mode.Found (Utf8.encode cs) haystack ↔ mode.Finds haystack (Utf8.Spans haystack cs) := by
  cases mode with
  | full => exact Utf8.spans_whole.symm
  | substring => exact Utf8.exists_spans.symm

namespace Finder

variable {find : Finder} {needle haystack : List UInt8}

theorem Exact.isSome_iff (exact : find.Exact) :
    (find needle haystack).isSome = true ↔ needle <:+: haystack := by
  rw [Option.isSome_iff_exists]
  constructor
  · rintro ⟨i, found⟩
    exact (exact.found _ _ i found).isInfix.trans (List.drop_suffix i haystack).isInfix
  · intro stands
    by_contra missing
    exact exact.missing _ _ (Option.eq_none_iff_forall_ne_some.2 (not_exists.1 missing)) stands

theorem trialFrom_eq_some {place i : Nat} (h : trialFrom place needle haystack = some i) :
    place ≤ i ∧ needle <+: haystack.drop (i - place) := by
  induction haystack generalizing place with
  | nil =>
    simp only [trialFrom, List.isEmpty_iff] at h
    split at h
    case isTrue empty =>
      cases h
      exact ⟨Nat.le_refl _, empty ▸ List.nil_prefix⟩
    case isFalse => cases h
  | cons b bytes ih =>
    simp only [trialFrom, List.isPrefixOf_iff_prefix] at h
    split at h
    case isTrue here =>
      cases h
      exact ⟨Nat.le_refl _, by rwa [Nat.sub_self]⟩
    case isFalse =>
      obtain ⟨later, stands⟩ := ih h
      refine ⟨Nat.le_of_succ_le later, ?_⟩
      have past : i - place = (i - (place + 1)) + 1 := by omega
      rwa [past]

theorem trialFrom_eq_none {place : Nat} (h : trialFrom place needle haystack = none) :
    ¬needle <:+: haystack := by
  induction haystack generalizing place with
  | nil =>
    simp only [trialFrom, List.isEmpty_iff] at h
    split at h
    case isTrue => cases h
    case isFalse nonempty => exact fun stands => nonempty (List.infix_nil.1 stands)
  | cons b bytes ih =>
    simp only [trialFrom, List.isPrefixOf_iff_prefix] at h
    split at h
    case isTrue => cases h
    case isFalse elsewhere =>
      rw [List.infix_cons_iff, not_or]
      exact ⟨elsewhere, ih h⟩

theorem exact_byTrial : byTrial.Exact :=
  ⟨fun _ _ _ found => (trialFrom_eq_some found).2, fun _ _ none => trialFrom_eq_none none⟩

end Finder

theorem Literal.isMatch_iff_found {find : Finder} (exact : find.Exact) (mode : MatchMode)
    (needle haystack : List UInt8) :
    isMatch find mode needle haystack = true ↔ mode.Found needle haystack := by
  cases mode with
  | full => exact beq_iff_eq
  | substring => exact exact.isSome_iff

theorem reads_literals (haystack : List UInt8) (cs : List Char) :
    Reads (Token.literals cs) (Level.Appends haystack (Utf8.Spans haystack cs)) := by
  induction cs with
  | nil =>
    rw [Utf8.spans_nil]
    exact .still
  | cons c cs ih =>
    rw [Utf8.spans_cons]
    exact ((Reads.operand (.literal c)).mono fun _ _ => Level.Pushes.appends).comp ih

theorem Utf8.within_spans (haystack : List UInt8) (cs : List Char) :
    Within haystack (Spans haystack cs) := by
  rintro i j ⟨bound, here, rfl⟩
  have enough := here.length_le
  rw [length_encode, List.length_drop] at enough
  omega

theorem Expr.spans_of_literals {limit : Option Nat} {cs : List Char} {e : Expr}
    (h : ofQuantified limit (Token.literals cs ++ [.finish]) = .ok e) (haystack : List UInt8) :
    e.Spans haystack = Utf8.Spans haystack cs := by
  have plain : (Token.literals cs ++ [Token.finish]).any Token.isQuantifier = false := by
    simp [Token.literals, Token.isQuantifier]
  rw [ofQuantified, plain] at h
  obtain ⟨l, appends, ended⟩ := reads_literals haystack cs [] .start [.finish] e h
  have closed : l.close .emptyPattern = .ok e := ended
  rw [Level.spans_of_close closed]
  ext i j
  rw [appends.spans_iff rfl (Utf8.within_spans haystack cs)]
  simp [Level.start]

theorem Token.spelledBy_quoteChar (c : Char) :
    (operand (.literal c)).SpelledBy (Literal.quoteChar c) := by
  unfold Literal.quoteChar
  split
  case isTrue sign =>
    have all : ∀ d ∈ Literal.metacharacters, shorthand? d = none := by
      simp [Literal.metacharacters, shorthand?]
    have same : ofEscaped c = operand (.literal c) := by rw [ofEscaped, all c sign]
    rw [← same]
    exact .escaped c
  case isFalse other =>
    simp only [Literal.metacharacters, List.mem_cons, List.not_mem_nil, or_false, not_or] at other
    have same : ofChar c = operand (.literal c) := by
      unfold ofChar
      split <;> simp_all
    rw [← same]
    exact .plain (by simp [other])

theorem Token.spells_quote (text : String) :
    Spells (Literal.quote text).toList (literals text.toList) := by
  rw [Literal.quote, String.toList_ofList]
  induction text.toList with
  | nil => exact .nil
  | cons c cs ih => exact .cons (spelledBy_quoteChar c) ih

namespace Literal

variable {text : String}

theorem quote_eq (plain : ∀ c ∈ text.toList, c ∉ metacharacters) : quote text = text := by
  have same : ∀ cs : List Char, (∀ c ∈ cs, c ∉ metacharacters) → cs.flatMap quoteChar = cs := by
    intro cs plain
    induction cs with
    | nil => rfl
    | cons c cs ih =>
      rw [List.forall_mem_cons] at plain
      rw [List.flatMap_cons, quoteChar, if_neg plain.1, ih plain.2, List.singleton_append]
  rw [quote, same _ plain, String.ofList_toList]

theorem not_mem_of_isLiteral (literal : isLiteral text = true) :
    ∀ c ∈ text.toList, c ∉ metacharacters := by
  intro c member
  simp only [isLiteral, Bool.and_eq_true, List.all_eq_true] at literal
  simpa using literal.2 c member

theorem quote_of_isLiteral (literal : isLiteral (quote text) = true) : quote text = text := by
  refine quote_eq fun c member sign => ?_
  have backslash : '\\' ∈ (quote text).toList := by
    rw [quote, String.toList_ofList, List.mem_flatMap]
    exact ⟨c, member, by simp [quoteChar, sign]⟩
  exact not_mem_of_isLiteral literal _ backslash (by decide)

end Literal

namespace Regex

variable {s : Settings} {text : String} {r : Regex}

/-- Every search for a quoted text finds the bytes of the text. -/
theorem answers_quote (made : ofText s (Literal.quote text) = .ok r) (calls : List Call) (call : Call) :
    (r.perform (r.memoryAfter calls) call).1 = true ↔
      s.matchMode.Found (Utf8.ofString text) call.haystack := by
  obtain ⟨ts, e, spells, read, answers⟩ := answers_iff_finds made
  cases Token.spells_unique spells (Token.spells_quote text)
  have spans := Expr.spans_of_literals read call.haystack
  rw [answers, spans, Utf8.ofString, MatchMode.found_iff_finds]

theorem answers_literal {find : Finder} (exact : find.Exact) (literal : Literal.isLiteral text = true)
    (made : ofText s text = .ok r) (calls : List Call) (call : Call) :
    (r.perform (r.memoryAfter calls) call).1 =
      Literal.isMatch find s.matchMode (Utf8.ofString text) call.haystack := by
  have same := Literal.quote_eq (Literal.not_mem_of_isLiteral literal)
  rw [Bool.eq_iff_iff, Literal.isMatch_iff_found exact]
  exact answers_quote (same.symm ▸ made) calls call

theorem text_of_ofText (made : ofText s text = .ok r) : r.pattern.text = text := by
  obtain ⟨pattern, compiled, result⟩ := ok_of_bind made
  cases result
  unfold CompiledPattern.ofText at compiled
  split at compiled
  · cases compiled
  · split at compiled
    · cases compiled
    · cases compiled
      rfl

theorem exists_with_literalSearch (made : ofText s text = .ok r) (flag : Bool) :
    ∃ r', ofText { s with literalSearch := flag } text = .ok r' := by
  obtain ⟨pattern, compiled, -⟩ := ok_of_bind made
  have same : CompiledPattern.ofText
      { s with literalSearch := flag }.construction text = .ok pattern := compiled
  rw [ofText, same]
  exact ⟨_, rfl⟩

/-- A pattern that is only text finds what comparing texts finds, with either kind of search, so it
makes no difference to a search as planned whether texts are compared. -/
theorem literal_search_agrees {find : Finder} (exact : find.Exact)
    (literal : Literal.isLiteral text = true) (made : ofText s text = .ok r) (calls : List Call)
    (haystack : List UInt8) :
    (r.simulate (r.memoryAfter calls) haystack).1 =
      Literal.isMatch find s.matchMode (Utf8.ofString text) haystack ∧
    (r.tabulate (r.memoryAfter calls) haystack).1 =
      Literal.isMatch find s.matchMode (Utf8.ofString text) haystack ∧
    ∀ flag, ∃ r', ofText { s with literalSearch := flag } text = .ok r' ∧
      ∀ calls', (r'.isMatch find (r'.memoryAfter calls') haystack).1 =
        Literal.isMatch find s.matchMode (Utf8.ofString text) haystack := by
  refine ⟨answers_literal exact literal made calls (.simulate haystack),
    answers_literal exact literal made calls (.tabulate haystack), fun flag => ?_⟩
  obtain ⟨r', made'⟩ := exists_with_literalSearch made flag
  refine ⟨r', made', fun calls' => ?_⟩
  unfold isMatch
  split
  · rw [(settings_of_ofText made').1, text_of_ofText made']
  · exact answers_literal exact literal made' calls' (.matchUsing r'.plan.strategy haystack)

theorem literal_search_agrees_of_text :
    ∃ r, ofText { matchMode := .substring, rowLimit := some 2 } "aé€" = .ok r ∧ ∀ haystack,
      (r.simulate (r.memoryAfter [.tabulate [0x61, 0xc3]]) haystack).1 =
        Literal.isMatch .byTrial .substring (Utf8.ofString "aé€") haystack ∧
      (r.tabulate (r.memoryAfter [.tabulate [0x61, 0xc3]]) haystack).1 =
        Literal.isMatch .byTrial .substring (Utf8.ofString "aé€") haystack ∧
      ∀ flag, ∃ r', ofText { matchMode := .substring, rowLimit := some 2, literalSearch := flag }
          "aé€" = .ok r' ∧
        ∀ calls', (r'.isMatch .byTrial (r'.memoryAfter calls') haystack).1 =
          Literal.isMatch .byTrial .substring (Utf8.ofString "aé€") haystack := by
  have literal : Literal.isLiteral "aé€" = true := by decide +kernel
  have compiles : (ofText { matchMode := .substring, rowLimit := some 2 } "aé€").isOk = true := by
    decide +kernel
  obtain ⟨r, made⟩ := exists_of_isOk compiles
  exact ⟨r, made, literal_search_agrees Finder.exact_byTrial literal made [.tabulate [0x61, 0xc3]]⟩

end Regex

end ByteRegex
