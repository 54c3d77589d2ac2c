import ByteRegex.ByteSet.ClassText
import ByteRegex.Pattern.Bounds
import ByteRegex.Pattern.Expr
import Mathlib.Logic.Relation

/-! The meaning of an expression on a haystack, as a set of spans. A place in a haystack is the
number of bytes before it, and a span is a pair of places with a match between them. Anchors span
nothing and hold at one absolute place each. A repetition composes spans, so that an anchor inside a
loop is asked again at every place where the loop starts over. -/

namespace ByteRegex

open Relation

def Anchor.HoldsAt (haystack : List UInt8) (i : Nat) : Anchor → Prop
  | .textStart => i = 0
  | .textEnd => i = haystack.length

def Operand.Spans (haystack : List UInt8) : Operand → Nat → Nat → Prop
  | .literal c, i, j => String.utf8EncodeChar c <+: haystack.drop i ∧ j = i + c.utf8Size
  | .charClass text, i, j =>
    (∃ b, haystack[i]? = some b ∧ (ByteSet.ofClassText text).contains b = true) ∧ j = i + 1
  | .wildcard, i, j => (∃ b, haystack[i]? = some b ∧ b ≠ 0x0a) ∧ j = i + 1
  | .anchor place, i, j => place.HoldsAt haystack i ∧ j = i

def Still (haystack : List UInt8) (i j : Nat) : Prop :=
  i = j ∧ i ≤ haystack.length

def Repetition.Spans (haystack : List UInt8) (body : Nat → Nat → Prop) :
    Repetition → Nat → Nat → Prop
  | .star, i, j => ReflTransGen body i j ∧ i ≤ haystack.length
  | .plus, i, j => TransGen body i j
  | .option, i, j => Still haystack i j ∨ body i j

/-- A given number of spans of the body, each beginning where the one before it ends. -/
def compositions (haystack : List UInt8) (body : Nat → Nat → Prop) : Nat → Nat → Nat → Prop
  | 0 => Still haystack
  | n + 1 => Comp body (compositions haystack body n)

def Bounds.Spans (haystack : List UInt8) (body : Nat → Nat → Prop) (b : Bounds) (i j : Nat) : Prop :=
  ∃ n, b.least ≤ n ∧ (∀ most, b.most = some most → n ≤ most) ∧ compositions haystack body n i j

def Expr.Spans (haystack : List UInt8) : Expr → Nat → Nat → Prop
  | .operand item => item.Spans haystack
  | .repeated op body => op.Spans haystack (body.Spans haystack)
  | .concat left right => Comp (left.Spans haystack) (right.Spans haystack)
  | .alternate left right => fun i j => left.Spans haystack i j ∨ right.Spans haystack i j

/-- Spans run forward and end within the haystack. -/
def Within (haystack : List UInt8) (spans : Nat → Nat → Prop) : Prop :=
  ∀ i j, spans i j → i ≤ j ∧ j ≤ haystack.length

variable {haystack : List UInt8} {body left right : Nat → Nat → Prop}

theorem within_still : Within haystack (Still haystack) := by
  rintro i j ⟨rfl, bound⟩
  exact ⟨Nat.le_refl i, bound⟩

theorem Within.comp (hl : Within haystack left) (hr : Within haystack right) :
    Within haystack (Comp left right) := by
  rintro i j ⟨k, first, second⟩
  have before := hl i k first
  have after := hr k j second
  exact ⟨Nat.le_trans before.1 after.1, after.2⟩

theorem Within.reflTransGen (hb : Within haystack body) {i j : Nat} (run : ReflTransGen body i j) :
    i ≤ j ∧ (i ≤ haystack.length → j ≤ haystack.length) := by
  induction run with
  | refl => exact ⟨Nat.le_refl i, id⟩
  | tail _ last ih =>
    have step := hb _ _ last
    exact ⟨Nat.le_trans ih.1 step.1, fun _ => step.2⟩

theorem Within.repetition (hb : Within haystack body) (op : Repetition) :
    Within haystack (op.Spans haystack body) := by
  intro i j span
  cases op with
  | star =>
    have run := hb.reflTransGen span.1
    exact ⟨run.1, run.2 span.2⟩
  | plus =>
    obtain ⟨k, first, rest⟩ := TransGen.head'_iff.1 span
    have start := hb i k first
    have run := hb.reflTransGen rest
    exact ⟨Nat.le_trans start.1 run.1, run.2 start.2⟩
  | option =>
    obtain empty | once := span
    · exact within_still i j empty
    · exact hb i j once

theorem Operand.within_spans (item : Operand) : Within haystack (item.Spans haystack) := by
  intro i j span
  cases item with
  | literal c =>
    have enough := span.1.length_le
    have pos := c.utf8Size_pos
    have stop : j = i + c.utf8Size := span.2
    rw [String.length_utf8EncodeChar, List.length_drop] at enough
    omega
  | charClass text =>
    obtain ⟨⟨b, found, -⟩, rfl⟩ := span
    have bound := (List.getElem?_eq_some_iff.1 found).1
    omega
  | wildcard =>
    obtain ⟨⟨b, found, -⟩, rfl⟩ := span
    have bound := (List.getElem?_eq_some_iff.1 found).1
    omega
  | anchor place =>
    obtain ⟨holds, rfl⟩ := span
    refine ⟨Nat.le_refl j, ?_⟩
    cases place with
    | textStart => exact Nat.le_trans (Nat.le_of_eq holds) (Nat.zero_le _)
    | textEnd => exact Nat.le_of_eq holds

theorem Expr.within_spans (e : Expr) : Within haystack (e.Spans haystack) := by
  induction e with
  | operand item => exact item.within_spans
  | repeated op body ih => exact ih.repetition op
  | concat left right ihl ihr => exact ihl.comp ihr
  | alternate left right ihl ihr =>
    intro i j span
    obtain first | second := span
    · exact ihl i j first
    · exact ihr i j second

theorem still_comp (hb : Within haystack body) : Comp (Still haystack) body = body := by
  ext i j
  constructor
  · rintro ⟨k, ⟨rfl, -⟩, span⟩
    exact span
  · intro span
    have bound := hb i j span
    exact ⟨i, ⟨rfl, Nat.le_trans bound.1 bound.2⟩, span⟩

theorem comp_still (hb : Within haystack body) : Comp body (Still haystack) = body := by
  ext i j
  constructor
  · rintro ⟨k, span, rfl, -⟩
    exact span
  · intro span
    exact ⟨j, span, rfl, (hb i j span).2⟩

theorem Within.compositions (hb : Within haystack body) (n : Nat) :
    Within haystack (compositions haystack body n) := by
  induction n with
  | zero => exact within_still
  | succ n ih => exact hb.comp ih

theorem comp_compositions (hb : Within haystack body) (m n : Nat) :
    Comp (compositions haystack body m) (compositions haystack body n) =
      compositions haystack body (m + n) := by
  induction m with
  | zero =>
    rw [Nat.zero_add]
    exact still_comp (hb.compositions n)
  | succ m ih =>
    rw [Nat.succ_add, compositions, compositions, comp_assoc, ih]

theorem spans_star_iff (hb : Within haystack body) {i j : Nat} :
    Repetition.star.Spans haystack body i j ↔ ∃ n, compositions haystack body n i j := by
  constructor
  · rintro ⟨run, bound⟩
    induction run using ReflTransGen.head_induction_on with
    | refl => exact ⟨0, rfl, bound⟩
    | @head i k first rest ih =>
      obtain ⟨n, spans⟩ := ih (hb i k first).2
      exact ⟨n + 1, k, first, spans⟩
  · rintro ⟨n, spans⟩
    have bound := hb.compositions n i j spans
    refine ⟨?_, Nat.le_trans bound.1 bound.2⟩
    clear bound
    induction n generalizing i with
    | zero => exact spans.1 ▸ .refl
    | succ n ih =>
      obtain ⟨k, first, rest⟩ := spans
      exact .head first (ih rest)

theorem compositions_option_iff {k i j : Nat} :
    compositions haystack (Repetition.option.Spans haystack body) k i j ↔
      ∃ n ≤ k, compositions haystack body n i j := by
  induction k generalizing i with
  | zero =>
    constructor
    · intro still
      exact ⟨0, Nat.le_refl 0, still⟩
    · rintro ⟨n, few, spans⟩
      rwa [Nat.le_zero.1 few] at spans
  | succ k ih =>
    constructor
    · rintro ⟨l, empty | once, rest⟩
      · -- a copy that is left out is one copy less
        obtain ⟨n, few, spans⟩ := ih.1 rest
        rw [← empty.1] at spans
        exact ⟨n, Nat.le_succ_of_le few, spans⟩
      · obtain ⟨n, few, spans⟩ := ih.1 rest
        exact ⟨n + 1, Nat.succ_le_succ few, l, once, spans⟩
    · rintro ⟨n, few, spans⟩
      cases n with
      | zero =>
        have none : ∃ n ≤ k, compositions haystack body n i j := ⟨0, Nat.zero_le k, spans⟩
        exact ⟨i, .inl ⟨rfl, (spans.1 ▸ spans.2 : i ≤ haystack.length)⟩, ih.2 none⟩
      | succ n =>
        obtain ⟨l, first, rest⟩ := spans
        exact ⟨l, .inr first, ih.2 ⟨n, Nat.le_of_succ_le_succ few, rest⟩⟩

namespace Bounds

variable {b : Bounds}

theorem spans_of_most_none (hb : Within haystack body) (h : b.most = none) :
    b.Spans haystack body =
      Comp (compositions haystack body b.least) (Repetition.star.Spans haystack body) := by
  ext i j
  constructor
  · rintro ⟨n, enough, -, spans⟩
    obtain ⟨extra, rfl⟩ := Nat.exists_eq_add_of_le enough
    rw [← comp_compositions hb] at spans
    obtain ⟨k, first, rest⟩ := spans
    exact ⟨k, first, (spans_star_iff hb).2 ⟨extra, rest⟩⟩
  · rintro ⟨k, first, rest⟩
    obtain ⟨extra, spans⟩ := (spans_star_iff hb).1 rest
    refine ⟨b.least + extra, Nat.le_add_right _ _, by simp [h], ?_⟩
    rw [← comp_compositions hb]
    exact ⟨k, first, spans⟩

theorem spans_of_most_some (hb : Within haystack body) {most : Nat} (h : b.most = some most) :
    b.Spans haystack body = Comp (compositions haystack body b.least)
      (compositions haystack (Repetition.option.Spans haystack body) (most - b.least)) := by
  have ordered := b.ordered most h
  ext i j
  constructor
  · rintro ⟨n, enough, few, spans⟩
    obtain ⟨extra, rfl⟩ := Nat.exists_eq_add_of_le enough
    have bound := few most h
    rw [← comp_compositions hb] at spans
    obtain ⟨k, first, rest⟩ := spans
    exact ⟨k, first, compositions_option_iff.2 ⟨extra, by omega, rest⟩⟩
  · rintro ⟨k, first, rest⟩
    obtain ⟨extra, few, spans⟩ := compositions_option_iff.1 rest
    refine ⟨b.least + extra, Nat.le_add_right _ _, ?_, ?_⟩
    · intro most' h'
      cases h.symm.trans h'
      omega
    · rw [← comp_compositions hb]
      exact ⟨k, first, spans⟩

theorem within_spans (hb : Within haystack body) : Within haystack (b.Spans haystack body) := by
  rintro i j ⟨n, -, -, spans⟩
  exact hb.compositions n i j spans

end Bounds

end ByteRegex
