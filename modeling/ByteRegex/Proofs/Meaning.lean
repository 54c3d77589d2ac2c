import ByteRegex.Proofs.Conversion
import ByteRegex.Proofs.History
import ByteRegex.Proofs.Outcome
import ByteRegex.Proofs.Parsing

/-! What an automaton matches, said of the symbols that it is built from, and what a regular expression
matches, said of the pattern as it is written. Symbols stand for the expression that they reduce to, and
a pattern is a tree that spells its text. The answers of searches are about spans of either. -/

namespace ByteRegex

/-- Symbols that reduce to one expression build an automaton, unless they need more nodes than there are
numbers. Simulations of the automaton answer whether the expression matches. -/
theorem Construction.simulate_iff_reduced {c : Construction} {symbols : List Symbol} {e : Expr}
    (unlimited : c.sizeLimit = none) (reduced : symbols.foldlM Symbol.reduce [] = some [e]) :
    (c.count symbols ≤ NodeId.maxCount → ∃ m, c.ofSymbols symbols = .ok m) ∧
    ∀ m, c.ofSymbols symbols = .ok m → ∀ haystack, ∃ answer,
      (Simulation.search m (.ofAutomaton m) haystack).1 = some answer ∧
      (answer = true ↔
        if c.unanchored then ∃ i j, e.Spans haystack i j else e.Spans haystack 0 haystack.length) := by
  constructor
  · intro fits
    have enough : c.count symbols ≤ c.capacity := by rwa [capacity, unlimited]
    exact ⟨_, (ofSymbols_eq_ite reduced).trans (if_pos enough)⟩
  · intro m built haystack
    have wf := wellFormed_of_ofSymbols built
    obtain ⟨e', reduced', rfl⟩ := ofSymbols_eq built
    cases reduced.symm.trans reduced'
    refine ⟨_, Simulation.search_eq wf Simulation.fits_ofAutomaton haystack, ?_⟩
    rw [Automaton.accepts_iff wf]
    cases c.unanchored with
    | false => simpa using e.accepts_anchored
    | true => simpa using e.accepts_unanchored

theorem Construction.simulate_iff_reduced_of_loop : ∃ m, Construction.ofSymbols { unanchored := true }
      [.operand (.literal 'é'), .operand (.anchor .textEnd), .alternate, .repetition .plus] = .ok m ∧
    ∀ haystack, ∃ answer, (Simulation.search m (.ofAutomaton m) haystack).1 = some answer ∧
      (answer = true ↔ ∃ i j, (Expr.repeated .plus (.alternate (.operand (.literal 'é'))
        (.operand (.anchor .textEnd)))).Spans haystack i j) := by
  have unlimited : ({ unanchored := true } : Construction).sizeLimit = none := rfl
  have reduced : [Symbol.operand (.literal 'é'), .operand (.anchor .textEnd), .alternate,
      .repetition .plus].foldlM Symbol.reduce [] = some [.repeated .plus
        (.alternate (.operand (.literal 'é')) (.operand (.anchor .textEnd)))] := rfl
  have answers := simulate_iff_reduced unlimited reduced
  obtain ⟨m, built⟩ := answers.1 (by decide)
  exact ⟨m, built, answers.2 m built⟩

theorem Construction.exists_of_ofPattern {c : Construction} {text : String} {m : Automaton}
    (h : c.ofPattern text = .ok m) : ∃ ts e, Token.Spells text.toList ts ∧
      Expr.ofQuantified c.sizeLimit (ts ++ [.finish]) = .ok e ∧ m = e.automaton c.unanchored := by
  unfold ofPattern at h
  split at h
  next => cases h
  next us scanned =>
    rw [ofTokens_eq] at h
    split at h
    next => cases h
    next e read =>
      obtain ⟨ts, rfl, spells⟩ := Token.ofPattern_eq_ok_iff.1 scanned
      exact ⟨ts, e, spells, read, ofSymbols_symbols h⟩

namespace Regex

variable {s : Settings} {text : String} {r : Regex}

end Regex

end ByteRegex
