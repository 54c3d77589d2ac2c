import ByteRegex.Proofs.Meaning

/-! What a regular expression answers, said of the expression that its tokens make. All kinds of search
give the answer, whatever was searched before. -/

namespace ByteRegex

/-- Whether there is a span of the kind that a match has to have. -/
def MatchMode.Finds (haystack : List UInt8) (spans : Nat → Nat → Prop) : MatchMode → Prop
  | .full => spans 0 haystack.length
  | .substring => ∃ i j, spans i j

namespace Regex

variable {s : Settings} {text : String} {r : Regex}

theorem accepts_iff_finds {e : Expr} (made : r.automaton = e.automaton s.construction.unanchored)
    (haystack : List UInt8) :
    r.automaton.Accepts haystack ↔ s.matchMode.Finds haystack (e.Spans haystack) := by
  rw [made]
  cases mode : s.matchMode with
  | full =>
    have anchored : s.construction.unanchored = false := by simp [Settings.construction, mode]
    rw [anchored, e.accepts_anchored]
    rfl
  | substring =>
    have unanchored : s.construction.unanchored = true := by simp [Settings.construction, mode]
    rw [unanchored, e.accepts_unanchored]
    rfl

theorem answers_iff_finds (made : ofText s text = .ok r) :
    ∃ ts e, Token.Spells text.toList ts ∧
      Expr.ofQuantified s.nodeLimit (ts ++ [.finish]) = .ok e ∧
      ∀ calls call, ((r.perform (r.memoryAfter calls) call).1 = true ↔
        s.matchMode.Finds call.haystack (e.Spans call.haystack)) := by
  obtain ⟨ts, e, spells, read, automaton⟩ :=
    Construction.exists_of_ofPattern (settings_of_ofText made).2
  refine ⟨ts, e, spells, read, fun calls call => ?_⟩
  have wf := (built_of_ofText made).wellFormed
  rw [(perform_spec wf (sound_memoryAfter wf calls) call).1, Automaton.accepts_iff wf]
  exact accepts_iff_finds automaton call.haystack

end Regex

end ByteRegex
