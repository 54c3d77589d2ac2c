import ByteRegex.Matching.Heuristic

/-! How the amount of input bears on the choice of a strategy. With more than one line a table is chosen
on either of two grounds: there are many lines and nothing in the pattern is complex, or the pattern is
short and has no alternation. More lines take neither ground away, so more input never turns the choice
of a table into that of a simulation. -/

namespace ByteRegex.Heuristic

/-- Whether a number of lines is a ground to fill in a table. -/
structure Favours (h : Heuristic) (c : Complexity) (lines : Nat) : Prop where
  several : 1 < lines
  ground : h.minLines < lines ∧ c.isComplex = false ∨
    c.alternation = false ∧ c.tokenCount ≤ h.maxTokens

/-- Whether a volume is known to hold no more than another: no more lines, given or estimated, or no more
bytes where no lines are given. -/
inductive NoMore (h : Heuristic) : Volume → Volume → Prop
  | lines {v w : Volume} {few many : Nat} (first : h.lines? v = some few)
      (second : h.lines? w = some many) (le : few ≤ many) : NoMore h v w
  | bytes {few many : Nat} (le : few ≤ many) : NoMore h ⟨some few, none⟩ ⟨some many, none⟩

variable {h : Heuristic} {c : Complexity} {v w : Volume} {few many : Nat}

theorem Favours.mono (favours : h.Favours c few) (le : few ≤ many) : h.Favours c many where
  several := Nat.lt_of_lt_of_le favours.several le
  ground := favours.ground.imp_left fun ⟨beyond, simple⟩ => ⟨Nat.lt_of_lt_of_le beyond le, simple⟩

theorem strategy_reasonFor_eq_dfa_iff {lines : Nat} : (h.reasonFor c lines).strategy = .dfa ↔
    h.minLines < lines ∧ c.isComplex = false ∨ c.alternation = false ∧ c.tokenCount ≤ h.maxTokens := by
  unfold reasonFor
  split
  case isTrue simple =>
    refine iff_of_true rfl (.inl ?_)
    simpa using simple
  case isFalse other =>
    have blocked : ¬(h.minLines < lines ∧ c.isComplex = false) := by simpa using other
    rw [or_iff_right blocked]
    split
    case isTrue alternates => simp [Reason.strategy, alternates]
    case isFalse plain =>
      split
      case isTrue long => simp [Reason.strategy, Nat.not_le.2 long]
      case isFalse short => simp [Reason.strategy, plain, Nat.not_lt.1 short]

theorem choose_eq_dfa_iff :
    h.choose c v = .dfa ↔ ∃ lines, h.lines? v = some lines ∧ h.Favours c lines := by
  rw [choose, reason]
  cases h.lines? v with
  | none => simp [Reason.strategy]
  | some lines =>
    by_cases several : 1 < lines
    · simp only [if_pos several, strategy_reasonFor_eq_dfa_iff, Option.some.injEq, exists_eq_left']
      exact ⟨.mk several, Favours.ground⟩
    · simp only [if_neg several, Option.some.injEq, exists_eq_left']
      exact iff_of_false (by simp [Reason.strategy]) fun favours => several favours.several

theorem estimate_mono (le : few ≤ many) : h.estimate few ≤ h.estimate many :=
  Nat.div_le_div_right le

theorem NoMore.exists_lines (more : h.NoMore v w) :
    ∃ few many, h.lines? v = some few ∧ h.lines? w = some many ∧ few ≤ many := by
  cases more with
  | lines first second le => exact ⟨_, _, first, second, le⟩
  | bytes le => exact ⟨_, _, rfl, rfl, estimate_mono le⟩

theorem name_prefix_explain_iff {s : Strategy} :
    s.name.toList <+: (h.explain c v).toList ↔ s = h.choose c v := by
  have written : (h.explain c v).toList = (h.choose c v).name.toList ++
      (": ".toList ++ (h.reason c v).explanation.toList) := by
    simp [explain, choose, String.toList_append]
  rw [written]
  cases s <;> cases h.choose c v <;> simp [Strategy.name]

/-- A table that is chosen for some input is chosen for more input, and what explains a choice begins with
the name of the chosen strategy and of no other. -/
theorem choose_of_more_input {h : Heuristic} {v w : Volume} (more : h.NoMore v w) (ts : List Token) :
    (h.choose (.ofTokens ts) v = .dfa → h.choose (.ofTokens ts) w = .dfa) ∧
    ∀ (u : Volume) (s : Strategy),
      s.name.toList <+: (h.explain (.ofTokens ts) u).toList ↔ s = h.choose (.ofTokens ts) u := by
  refine ⟨fun chosen => ?_, fun u s => name_prefix_explain_iff⟩
  obtain ⟨few, many, first, second, le⟩ := more.exists_lines
  obtain ⟨lines, known, favours⟩ := choose_eq_dfa_iff.1 chosen
  cases first.symm.trans known
  exact choose_eq_dfa_iff.2 ⟨many, second, favours.mono le⟩

theorem choose_of_more_input_of_letter :
    NoMore { minLines := 2, lineSize := 0 } ⟨none, some 2⟩ ⟨some 3, none⟩ ∧
    choose { minLines := 2, lineSize := 0 } (.ofTokens [.operand (.literal 'a'), .finish])
      ⟨some 3, none⟩ = .dfa ∧
    "DFA".toList <+: (explain { minLines := 2, lineSize := 0 }
      (.ofTokens [.operand (.literal 'a'), .finish]) ⟨some 3, none⟩).toList := by
  have more : NoMore { minLines := 2, lineSize := 0 } ⟨none, some 2⟩ ⟨some 3, none⟩ :=
    .lines rfl rfl (by decide)
  have holds := choose_of_more_input more [.operand (.literal 'a'), .finish]
  have chosen := holds.1 (by decide)
  exact ⟨more, chosen, (holds.2 _ .dfa).2 chosen.symm⟩

end ByteRegex.Heuristic
