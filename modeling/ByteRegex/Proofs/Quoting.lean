import ByteRegex.Proofs.Ending
import ByteRegex.Proofs.Offsets
import ByteRegex.Proofs.PlainText

/-! Quoting a text makes a pattern for it. Such a pattern is never malformed, and it needs one node for
each byte of the text, whatever is quoted. It matches where these bytes stand, with either kind of
search, and whether texts are compared makes no difference to it. -/

namespace ByteRegex

theorem Token.literals_eq (cs : List Char) : literals cs = (cs.map .literal).map .operand :=
  List.map_map.symm

theorem Expansion.cost_literals (cs : List Char) : cost (Token.literals cs) = Utf8.size cs := by
  induction cs with
  | nil => rfl
  | cons c cs ih =>
    rw [Utf8.size_cons, ← ih, Token.literals, List.map_cons, cost_cons, Token.cost_literal]
    rfl

theorem Expr.exists_of_literals {cs : List Char} (nonempty : cs ≠ []) (limit : Option Nat) :
    ∃ e, ofQuantified limit (Token.literals cs ++ [.finish]) = .ok e ∧ e.width = Utf8.size cs := by
  have items : cs.map Operand.literal ≠ [] := by simpa using nonempty
  obtain ⟨e, read⟩ := exists_of_operands items limit
  have plain := plain_of_operands (cs.map .literal)
  rw [← Token.literals_eq] at read plain
  have ended : Expansion.Ignorable limit [] := Expansion.ignorable_of_plain (List.forall_mem_nil _) limit
  refine ⟨e, (ofQuantified_of_ignorable ended _).trans read, ?_⟩
  have expanded : expand limit (Token.literals cs ++ [.finish]) = .ok (Token.literals cs ++ [.finish]) :=
    expand_plain fun t member => (List.mem_append.1 member).elim (plain t) fun last => by
      rw [List.mem_singleton.1 last]
      rfl
  rw [ofQuantified_eq, expand_plain plain] at read
  have noFinish : .finish ∉ Token.literals cs := by simp [Token.literals]
  rw [width_of_ofTokens noFinish expanded ((ofTokens_append_finish _ []).trans read),
    Expansion.cost_append, Expansion.cost_literals]
  rfl

namespace Construction

theorem ofTokens_literals {cs : List Char} (nonempty : cs ≠ []) (c : Construction) :
    c.Settles (Utf8.size cs + if c.unanchored then 5 else 1)
      (c.ofTokens (Token.literals cs ++ [.finish])) := by
  obtain ⟨e, read, width⟩ := Expr.exists_of_literals nonempty c.sizeLimit
  have reduced : e.symbols.foldlM Symbol.reduce [] = some [e] := Symbol.reduce_eq_iff.2 rfl
  rw [ofTokens_eq, read, ← width, ← costs_eq_width reduced]
  exact ofSymbols_settles reduced

end Construction

namespace Regex

variable {s : Settings} {text : String}

theorem ofText_of_ofPattern {ts : List Token} (read : Token.ofPattern text = .ok ts) :
    (∀ m, s.construction.ofTokens ts = .ok m → ∃ r, ofText s text = .ok r) ∧
    ∀ e, s.construction.ofTokens ts = .error e → ofText s text = .error (.automaton e) := by
  constructor
  · intro m built
    rw [ofText, CompiledPattern.ofText, read]
    simp only [built]
    exact ⟨_, rfl⟩
  · intro e refused
    rw [ofText, CompiledPattern.ofText, read]
    simp only [refused]
    rfl

theorem literal_of_ofText {r : Regex} (made : ofText s text = .ok r) :
    r.literal = (s.literalSearch && Literal.isLiteral text) := by
  obtain ⟨pattern, -, result⟩ := ok_of_bind made
  cases result
  rfl

theorem isMatch_quote {find : Finder} (exact : find.Exact) {r : Regex}
    (made : ofText s (Literal.quote text) = .ok r) (calls : List Call) (haystack : List UInt8) :
    (r.isMatch find (r.memoryAfter calls) haystack).1 = true ↔
      s.matchMode.Found (Utf8.ofString text) haystack := by
  unfold isMatch
  split
  case isTrue literal =>
    rw [literal_of_ofText made, Bool.and_eq_true] at literal
    rw [(settings_of_ofText made).1, text_of_ofText made, Literal.quote_of_isLiteral literal.2]
    exact Literal.isMatch_iff_found exact ..
  case isFalse => exact answers_quote made calls (.matchUsing r.plan.strategy haystack)

/-- Every text that is not empty can be quoted to match itself. The pattern is refused only where the
bytes of the text need more nodes than there may be. -/
theorem quoted_matches_itself {find : Finder} (exact : find.Exact) (nonempty : text ≠ "") (s : Settings) :
    (if text.utf8ByteSize + (if s.construction.unanchored then 5 else 1) ≤ s.construction.capacity then
      ∃ r, ofText s (Literal.quote text) = .ok r
    else ofText s (Literal.quote text) = .error (.automaton s.construction.overflow)) ∧
    ∀ r, ofText s (Literal.quote text) = .ok r → ∀ calls haystack,
      ((r.simulate (r.memoryAfter calls) haystack).1 = true ↔
        s.matchMode.Found (Utf8.ofString text) haystack) ∧
      ((r.tabulate (r.memoryAfter calls) haystack).1 = true ↔
        s.matchMode.Found (Utf8.ofString text) haystack) ∧
      ((r.isMatch find (r.memoryAfter calls) haystack).1 = true ↔
        s.matchMode.Found (Utf8.ofString text) haystack) := by
  constructor
  · have chars : text.toList ≠ [] := by simpa using nonempty
    have read : Token.ofPattern (Literal.quote text) = .ok (Token.literals text.toList ++ [.finish]) :=
      Token.ofPattern_eq_ok_iff.2 ⟨_, rfl, Token.spells_quote text⟩
    obtain ⟨compiles, fails⟩ := ofText_of_ofPattern (s := s) read
    have settles := s.construction.ofTokens_literals chars
    rw [Utf8.size_toList] at settles
    by_cases enough : text.utf8ByteSize + (if s.construction.unanchored then 5 else 1) ≤
        s.construction.capacity
    · rw [Construction.Settles, if_pos enough] at settles
      obtain ⟨m, built⟩ := settles
      rw [if_pos enough]
      exact compiles m built
    · rw [Construction.Settles, if_neg enough] at settles
      rw [if_neg enough]
      exact fails _ settles
  · intro r made calls haystack
    exact ⟨answers_quote made calls (.simulate haystack), answers_quote made calls (.tabulate haystack),
      isMatch_quote exact made calls haystack⟩

theorem quoted_matches_itself_of_operator :
    Literal.quote "1+é" = "1\\+é" ∧
    ∃ r, ofText { matchMode := .substring, rowLimit := some 2 } "1\\+é" = .ok r ∧ ∀ haystack,
      ((r.simulate (r.memoryAfter [.tabulate [0x31, 0x31]]) haystack).1 = true ↔
        [0x31, 0x2b, 0xc3, 0xa9] <:+: haystack) ∧
      ((r.tabulate (r.memoryAfter [.tabulate [0x31, 0x31]]) haystack).1 = true ↔
        [0x31, 0x2b, 0xc3, 0xa9] <:+: haystack) ∧
      ((r.isMatch .byTrial (r.memoryAfter [.tabulate [0x31, 0x31]]) haystack).1 = true ↔
        [0x31, 0x2b, 0xc3, 0xa9] <:+: haystack) := by
  have quoted : Literal.quote "1+é" = "1\\+é" := by decide +kernel
  have bytes : Utf8.ofString "1+é" = [0x31, 0x2b, 0xc3, 0xa9] := by decide +kernel
  have nonempty : "1+é" ≠ "" := by decide
  obtain ⟨compiles, answers⟩ :=
    quoted_matches_itself Finder.exact_byTrial nonempty { matchMode := .substring, rowLimit := some 2 }
  rw [if_pos (by decide +kernel)] at compiles
  obtain ⟨r, made⟩ := compiles
  have found := answers r made [.tabulate [0x31, 0x31]]
  rw [bytes] at found
  exact ⟨quoted, r, quoted ▸ made, found⟩

end Regex

end ByteRegex
