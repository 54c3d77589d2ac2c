import ByteRegex.Proofs.Spans
import ByteRegex.Proofs.Unrolling

/-! Patterns as trees, and what they mean. A tree has the tokens of a pattern as they are written, its
quantifiers included, and spans that follow the tree and know nothing of how quantifiers are written
out. A quantifier repeats an item only, and no other repetition stands after it. -/

namespace ByteRegex

open Relation

/-- How closely a part of a pattern is bound together. -/
inductive Rank
  | item
  | factor
  | piece
  | branch
  | pattern

/-- The parts of a pattern. A group that a quantifier erases need not have any meaning, so any row of
tokens may stand in it. -/
inductive Phrase : Rank → Type
  | operand (item : Operand) : Phrase .item
  | group (inside : Phrase .pattern) : Phrase .item
  | once (x : Phrase .item) : Phrase .factor
  | repeated (x : Phrase .factor) (op : Repetition) : Phrase .factor
  | plain (x : Phrase .factor) : Phrase .piece
  | bounded (x : Phrase .item) (b : Bounds) (bounds : List Char) (denotes : b.Denotes bounds) :
      Phrase .piece
  | erased (inside : Source .row) (b : Bounds) (bounds : List Char) (denotes : b.Denotes bounds)
      (zero : b.most = some 0) : Phrase .piece
  | first (x : Phrase .piece) : Phrase .branch
  | next (before : Phrase .branch) (x : Phrase .piece) : Phrase .branch
  | last (x : Phrase .branch) : Phrase .pattern
  | either (before : Phrase .pattern) (x : Phrase .branch) : Phrase .pattern

namespace Phrase

def tokens {k : Rank} : Phrase k → List Token
  | operand item => [.operand item]
  | group inside => .groupOpen :: inside.tokens ++ [.groupClose]
  | once x => x.tokens
  | repeated x op => x.tokens ++ [.repetition op]
  | plain x => x.tokens
  | bounded x _ bounds _ => x.tokens ++ [.ofBounds bounds]
  | erased inside _ bounds _ _ => (Source.group inside).tokens ++ [.ofBounds bounds]
  | first x => x.tokens
  | next before x => before.tokens ++ x.tokens
  | last x => x.tokens
  | either before x => before.tokens ++ .alternation :: x.tokens

def written {k : Rank} : Phrase k → List Token
  | operand item => [.operand item]
  | group inside => .groupOpen :: inside.written ++ [.groupClose]
  | once x => x.written
  | repeated x op => x.written ++ [.repetition op]
  | plain x => x.written
  | bounded x b _ _ => b.unroll x.written
  | erased _ _ _ _ _ => []
  | first x => x.written
  | next before x => before.written ++ x.written
  | last x => x.written
  | either before x => before.written ++ .alternation :: x.written

def Spans (haystack : List UInt8) {k : Rank} : Phrase k → Nat → Nat → Prop
  | operand item => item.Spans haystack
  | group inside => inside.Spans haystack
  | once x => x.Spans haystack
  | repeated x op => op.Spans haystack (x.Spans haystack)
  | plain x => x.Spans haystack
  | bounded x b _ _ => b.Spans haystack (x.Spans haystack)
  | erased _ _ _ _ _ => Still haystack
  | first x => x.Spans haystack
  | next before x => Comp (before.Spans haystack) (x.Spans haystack)
  | last x => x.Spans haystack
  | either before x => fun i j => before.Spans haystack i j ∨ x.Spans haystack i j

variable {k : Rank} {haystack : List UInt8}

theorem within_spans (x : Phrase k) : Within haystack (x.Spans haystack) := by
  induction x with
  | operand item => exact item.within_spans
  | group inside ih => exact ih
  | once x ih => exact ih
  | repeated x op ih => exact ih.repetition op
  | plain x ih => exact ih
  | bounded x b bounds denotes ih => exact Bounds.within_spans ih
  | erased inside b bounds denotes zero => exact within_still
  | first x ih => exact ih
  | next before x ihb ih => exact ihb.comp ih
  | last x ih => exact ih
  | either before x ihb ih =>
    intro i j span
    obtain left | right := span
    · exact ihb i j left
    · exact ih i j right

theorem unroll_of_most_zero {b : Bounds} (zero : b.most = some 0) (atom : List Token) :
    b.unroll atom = [] := by
  have least : b.least = 0 := Nat.le_zero.1 (b.ordered 0 zero)
  simp [Bounds.unroll, zero, least]

theorem exists_source (x : Phrase k) :
    (∀ before : Source .row, ∃ s : Source .row,
      s.tokens = before.tokens ++ x.tokens ∧ s.written = before.written ++ x.written) ∧
    (k = .item → ∃ a : Source .atom, a.tokens = x.tokens ∧ a.written = x.written) := by
  have ofAtom {y : Phrase .item} (a : Source .atom)
      (same : a.tokens = y.tokens ∧ a.written = y.written) (before : Source .row) :
      ∃ s : Source .row, s.tokens = before.tokens ++ y.tokens ∧
        s.written = before.written ++ y.written :=
    ⟨.single before a, by rw [← same.1]; rfl, by rw [← same.2]; rfl⟩
  -- a quantifier needs its atom by itself, so items are also found alone
  induction x with
  | operand item => exact ⟨ofAtom (.operand item) ⟨rfl, rfl⟩, fun _ => ⟨.operand item, rfl, rfl⟩⟩
  | group inside ih =>
    obtain ⟨s, tokens, written⟩ := ih.1 .empty
    have same : (Source.group s).tokens = (group inside).tokens ∧
        (Source.group s).written = (group inside).written := by
      simp [Source.tokens, Source.written, Phrase.tokens, Phrase.written, tokens, written]
    exact ⟨ofAtom (.group s) same, fun _ => ⟨.group s, same⟩⟩
  | once x ih | plain x ih | first x ih | last x ih => exact ⟨ih.1, fun item => by cases item⟩
  | repeated x op ih =>
    refine ⟨fun before => ?_, fun item => by cases item⟩
    obtain ⟨s, tokens, written⟩ := ih.1 before
    refine ⟨.repetition s op, ?_, ?_⟩
    · simp [Source.tokens, Phrase.tokens, tokens]
    · simp [Source.written, Phrase.written, written]
  | bounded x b bounds denotes ih =>
    refine ⟨fun before => ?_, fun item => by cases item⟩
    obtain ⟨a, tokens, written⟩ := ih.2 rfl
    refine ⟨.times before a b bounds denotes, ?_, ?_⟩
    · simp [Source.tokens, Phrase.tokens, tokens]
    · simp [Source.written, Phrase.written, written]
  | erased inside b bounds denotes zero =>
    refine ⟨fun before => ?_, fun item => by cases item⟩
    refine ⟨.times before (.group inside) b bounds denotes, ?_, ?_⟩
    · simp [Source.tokens, Phrase.tokens]
    · simp [Source.written, Phrase.written, unroll_of_most_zero zero]
  | next before x ihb ih =>
    refine ⟨fun start => ?_, fun item => by cases item⟩
    obtain ⟨s, tokens, written⟩ := ihb.1 start
    obtain ⟨s', tokens', written'⟩ := ih.1 s
    refine ⟨s', ?_, ?_⟩
    · simp [Phrase.tokens, tokens', tokens]
    · simp [Phrase.written, written', written]
  | either before x ihb ih =>
    refine ⟨fun start => ?_, fun item => by cases item⟩
    obtain ⟨s, tokens, written⟩ := ihb.1 start
    obtain ⟨s', tokens', written'⟩ := ih.1 (.alternation s)
    refine ⟨s', ?_, ?_⟩
    · simp [Phrase.tokens, Source.tokens, tokens', tokens]
    · simp [Phrase.written, Source.written, written', written]

theorem expand_tokens (x : Phrase .pattern) {limit : Option Nat} {us : List Token}
    (h : expand limit (x.tokens ++ [.finish]) = .ok us) : us = x.written ++ [.finish] := by
  obtain ⟨e, steps, rfl⟩ := expand_finish h
  obtain ⟨s, tokens, written⟩ := x.exists_source.1 .empty
  have same : s.tokens = x.tokens := tokens
  rw [← same] at steps
  rw [Expansion.written_of_source s steps, written]
  simp [Source.written]

end Phrase

end ByteRegex
