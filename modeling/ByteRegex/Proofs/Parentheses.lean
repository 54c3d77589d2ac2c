import ByteRegex.Proofs.Answers
import ByteRegex.Proofs.Regrouping

/-! A repetition after an atom and its bounds, with and without parentheses around the two, in any
context. What was read before and what comes later is the same for both, so the two patterns are trees that
differ at that place alone. -/

namespace ByteRegex

namespace Token

def enter : Nat → Token → Option Nat
  | depth, groupOpen => some (depth + 1)
  | 0, groupClose => none
  | depth + 1, groupClose => some depth
  | depth, _ => some depth

def Balanced (ts : List Token) : Prop :=
  ts.foldlM enter 0 = some 0

instance (ts : List Token) : Decidable (Balanced ts) :=
  inferInstanceAs (Decidable (ts.foldlM enter 0 = some 0))

/-- Whether tokens are what a quantifier repeats: an operand, or a group with all that is in it. -/
inductive IsAtom : List Token → Prop
  | operand (item : Operand) : IsAtom [.operand item]
  | group {inside : List Token} (balanced : Balanced inside) :
      IsAtom (.groupOpen :: inside ++ [.groupClose])

end Token

namespace Expansion.Progress

variable {p p' q q' : Progress} {t : Token} {ts xs : List Token}

/-- Whether what was read differs only in parentheses around atoms with indifferent bounds. -/
structure Regrouped (p p' : Progress) : Prop where
  strays : List.Forall₂ Source.Regrouped p.strays p'.strays
  outer : List.Forall₂ Source.Regrouped p.outer p'.outer
  current : p.current.Regrouped p'.current

theorem regrouped_start : Regrouped ⟨[], [], .empty⟩ ⟨[], [], .empty⟩ :=
  ⟨.nil, .nil, .empty⟩

theorem Regrouped.push (h : p.Regrouped p') (t : Token) : (p.push t).Regrouped (p'.push t) := by
  obtain ⟨strays, outer, current⟩ := p
  obtain ⟨strays', outer', current'⟩ := p'
  obtain ⟨hs, ho, hc⟩ := h
  cases t with
  | operand item => exact ⟨hs, ho, .single hc (.operand item)⟩
  | repetition op => exact ⟨hs, ho, .repetition op hc⟩
  | alternation => exact ⟨hs, ho, .alternation hc⟩
  | groupOpen => exact ⟨hs, .cons hc ho, .empty⟩
  | groupClose =>
    cases ho with
    | nil => exact ⟨.cons hc hs, .nil, .empty⟩
    | cons first rest => exact ⟨hs, rest, .single first (.group hc)⟩
  | quantifier text => exact ⟨hs, ho, hc⟩
  | finish => exact ⟨hs, ho, hc⟩

theorem Regrouped.step (h : p.Regrouped p') (first : p.Step t q) (second : p'.Step t q') :
    q.Regrouped q' := by
  cases first with
  | plain plain other =>
    cases second with
    | plain => exact h.push t
    | times => cases plain
  | times last same read denotes =>
    cases second with
    | plain plain other => cases plain
    | times last' same' read' denotes' =>
      cases read.symm.trans read'
      have related := h.current
      rw [last, last'] at related
      cases related with
      | single before atom => exact ⟨h.strays, h.outer, .times before atom⟩

theorem Regrouped.steps (h : p.Regrouped p') (first : Steps p ts q) (second : Steps p' ts q') :
    q.Regrouped q' := by
  induction first generalizing p' with
  | refl p =>
    cases second
    exact h
  | head step rest ih =>
    cases second with
    | head step' rest' => exact ih (h.step step step') rest'

theorem Step.local {inner base : List (Source .row)} {depth : Nat} (h : p.Step t q)
    (outer : p.outer = inner ++ base) (enter : Token.enter inner.length t = some depth) :
    ∃ inner', inner'.length = depth ∧ q.outer = inner' ++ base ∧ q.strays = p.strays ∧
      ∀ strays base', Step ⟨strays, inner ++ base', p.current⟩ t ⟨strays, inner' ++ base', q.current⟩ := by
  obtain ⟨strays, _, current⟩ := p
  cases outer
  cases h with
  | times last same read denotes =>
    cases enter
    have current_eq : current = _ := last
    exact ⟨inner, rfl, rfl, rfl, fun _ _ => .times current_eq same read denotes⟩
  | plain plain other =>
    have pushed (strays base') := Step.plain (p := ⟨strays, inner ++ base', current⟩) plain other
    cases t with
    | operand item | repetition op | alternation =>
      cases enter
      exact ⟨inner, rfl, rfl, rfl, pushed⟩
    | groupOpen =>
      cases enter
      exact ⟨current :: inner, rfl, rfl, rfl, pushed⟩
    | groupClose =>
      cases inner with
      | nil => cases enter
      | cons x inner =>
        cases enter
        exact ⟨inner, rfl, rfl, rfl, pushed⟩
    | quantifier text => cases plain
    | finish => exact absurd rfl other

theorem Steps.local {inner base : List (Source .row)} {depth : Nat} (h : Steps p ts q)
    (outer : p.outer = inner ++ base) (enter : ts.foldlM Token.enter inner.length = some depth) :
    ∃ inner', inner'.length = depth ∧ q.outer = inner' ++ base ∧ q.strays = p.strays ∧
      ∀ strays base', Steps ⟨strays, inner ++ base', p.current⟩ ts ⟨strays, inner' ++ base', q.current⟩ := by
  induction h generalizing inner with
  | refl p =>
    cases enter
    exact ⟨inner, rfl, outer, rfl, fun _ _ => .refl _⟩
  | head first rest ih =>
    rw [List.foldlM_cons] at enter
    obtain ⟨next, entered, others⟩ := Option.bind_eq_some_iff.1 enter
    obtain ⟨inner₁, rfl, outer₁, strays₁, step⟩ := first.local outer entered
    obtain ⟨inner₂, length, outer₂, strays₂, steps⟩ := ih outer₁ others
    exact ⟨inner₂, length, outer₂, strays₂.trans strays₁,
      fun strays base' => .head (step strays base') (steps strays base')⟩

theorem Steps.append {r : Progress} {us : List Token} (h : Steps p ts q) (h' : Steps q us r) :
    Steps p (ts ++ us) r := by
  induction h with
  | refl p => exact h'
  | head first rest ih => exact .head first (ih h')

theorem steps_singleton (h : p.Step t q) : Steps p [t] q :=
  .head h (.refl q)

theorem Steps.singleton (h : Steps p [t] q) : p.Step t q := by
  cases h with
  | head first rest =>
    cases rest
    exact first

theorem exists_atom (atom : Token.IsAtom xs) (h : Steps p xs q) :
    ∃ a, q = { p with current := .single p.current a } ∧
      Steps ⟨[], [], .empty⟩ xs ⟨[], [], .single .empty a⟩ := by
  cases atom with
  | operand item =>
    cases h.singleton with
    | plain plain other => exact ⟨.operand item, rfl, steps_singleton (.plain plain other)⟩
  | @group inside balanced =>
    obtain ⟨p₂, opened, closes⟩ := h.of_append
    cases opened with
    | head opens rest =>
      cases opens with
      | plain plain other =>
        obtain ⟨inner, none, outer, strays, steps⟩ := rest.local (List.nil_append _).symm balanced
        cases List.length_eq_zero_iff.1 none
        cases closes.singleton with
        | plain plain' other' =>
          obtain ⟨strays₂, outer₂, current₂⟩ := p₂
          cases outer
          cases strays
          refine ⟨.group current₂, rfl, ?_⟩
          have opens' := Step.plain (p := ⟨[], [], .empty⟩) plain other
          have closes' := Step.plain (p := ⟨[], [.empty], current₂⟩) plain' other'
          exact (Steps.head opens' (steps [] [.empty])).append (steps_singleton closes')

theorem regrouped_atoms {a a' : Source .atom}
    (h : Steps ⟨[], [], .empty⟩ xs ⟨[], [], .single .empty a⟩)
    (h' : Steps ⟨[], [], .empty⟩ xs ⟨[], [], .single .empty a'⟩) : a.Regrouped a' := by
  have related := (regrouped_start.steps h h').current
  cases related with
  | single before atom => exact atom

variable {b : Bounds} {bounds : List Char}

theorem exists_times (denotes : b.Denotes bounds) (atom : Token.IsAtom xs)
    (h : Steps p (xs ++ [.ofBounds bounds]) q) : ∃ a bounds', ∃ denotes' : b.Denotes bounds',
      q = { p with current := .times p.current a b bounds' denotes' } ∧
      Steps ⟨[], [], .empty⟩ xs ⟨[], [], .single .empty a⟩ := by
  obtain ⟨p₁, through, last⟩ := h.of_append
  obtain ⟨a, rfl, alone⟩ := exists_atom atom through
  cases last.singleton with
  | plain plain other => cases plain
  | times current_eq same read denotes' =>
    cases current_eq
    cases denotes.eq_of_ofText read
    exact ⟨a, _, denotes', rfl, alone⟩

theorem exists_group_times (denotes : b.Denotes bounds) (atom : Token.IsAtom xs)
    (h : Steps p (.groupOpen :: (xs ++ [.ofBounds bounds]) ++ [.groupClose]) q) :
    ∃ a bounds', ∃ denotes' : b.Denotes bounds',
      q = { p with current := .single p.current (.group (.times .empty a b bounds' denotes')) } ∧
      Steps ⟨[], [], .empty⟩ xs ⟨[], [], .single .empty a⟩ := by
  obtain ⟨p₂, opened, closes⟩ := h.of_append
  cases opened with
  | head opens rest =>
    cases opens with
    | plain plain other =>
      obtain ⟨a, bounds', denotes', rfl, alone⟩ := exists_times denotes atom rest
      cases closes.singleton with
      | plain plain' other' => exact ⟨a, bounds', denotes', rfl, alone⟩

theorem Steps.eq_of_repetitions {op op' : Repetition}
    (h : Steps p [.repetition op, .repetition op'] q) :
    q = { p with current := (p.current.repetition op).repetition op' } := by
  cases h with
  | head first rest =>
    cases first with
    | plain =>
      cases rest.singleton with
      | plain => rfl

theorem regrouped_of_parentheses (indifferent : b.Indifferent) (denotes : b.Denotes bounds)
    (atom : Token.IsAtom xs) {left right : List Token}
    (h : Steps ⟨[], [], .empty⟩ (left ++ (xs ++ [.ofBounds bounds] ++ right)) q)
    (h' : Steps ⟨[], [], .empty⟩
      (left ++ (.groupOpen :: (xs ++ [.ofBounds bounds]) ++ [.groupClose] ++ right)) q') :
    q.Regrouped q' := by
  obtain ⟨p, before, others⟩ := h.of_append
  obtain ⟨p', before', others'⟩ := h'.of_append
  have same := regrouped_start.steps before before'
  obtain ⟨p₁, quantified, later⟩ := others.of_append
  obtain ⟨p₁', quantified', later'⟩ := others'.of_append
  obtain ⟨a, bounds₁, denotes₁, rfl, alone⟩ := exists_times denotes atom quantified
  obtain ⟨a', bounds₂, denotes₂, rfl, alone'⟩ := exists_group_times denotes atom quantified'
  refine Regrouped.steps ?_ later later'
  exact ⟨same.strays, same.outer, .regroup indifferent same.current (regrouped_atoms alone alone')⟩

end Expansion.Progress

namespace Token

variable {x bounds cs : List Char} {xs ts : List Token} {b : Bounds}

def withBounds (x bounds : List Char) : List Char :=
  x ++ ('\x7b' :: bounds ++ ['\x7d'])

def parenthesized (cs : List Char) : List Char :=
  '(' :: cs ++ [')']

theorem spells_withBounds (spells : Spells x xs) (denotes : b.Denotes bounds) :
    Spells (withBounds x bounds) (xs ++ [.ofBounds bounds]) :=
  spells.append (SpelledBy.bounds denotes.numeric).spells

theorem spells_parenthesized (spells : Spells cs ts) :
    Spells (parenthesized cs) (.groupOpen :: ts ++ [.groupClose]) := by
  have opens : groupOpen.SpelledBy ['('] := .plain (c := '(') (by decide)
  have closes : groupClose.SpelledBy [')'] := .plain (c := ')') (by decide)
  exact opens.spells.append (spells.append closes.spells)

theorem spelledBy_sign (op : Repetition) : (repetition op).SpelledBy [op.sign] := by
  cases op with
  | star => exact .plain (c := '*') (by decide)
  | plus => exact .plain (c := '+') (by decide)
  | option => exact .plain (c := '?') (by decide)

end Token

open Expansion

theorem Source.exists_of_ofTokens {s : Source .row} {e : Expr}
    (h : Expr.ofTokens (s.written ++ [.finish]) = .ok e) :
    ∃ l : Level, s.value? = some l ∧ l.close .emptyPattern = .ok e := by
  have evaluated : Changes s.written .start s.value? := s.evaluated
  have read := evaluated [] [.finish]
  rw [← Expr.ofTokens, h] at read
  obtain ⟨l, value, ended⟩ := Option.bind_eq_some_iff.1 read.symm
  exact ⟨l, value, ok_of_toOption ended⟩

namespace Regex

variable {s : Settings} {r r' : Regex} {op : Repetition} {b : Bounds} {cs x bounds left right : List Char}
  {ts xs ls rs : List Token}

theorem exists_level (made : ofText s (String.ofList cs) = .ok r) (spells : Token.Spells cs ts) :
    ∃ (c : Source .row) (l : Level) (e : Expr), Progress.Steps ⟨[], [], .empty⟩ ts ⟨[], [], c⟩ ∧
      c.value? = some l ∧ l.close .emptyPattern = .ok e ∧
      ∀ calls call, ((r.perform (r.memoryAfter calls) call).1 = true ↔
        s.matchMode.Finds call.haystack (e.Spans call.haystack)) := by
  obtain ⟨us, e, spells', read, answers⟩ := answers_iff_finds made
  rw [String.toList_ofList] at spells'
  cases Token.spells_unique spells spells'
  obtain ⟨c, steps, ended⟩ := Source.exists_of_ofQuantified (Token.finish_not_mem spells)
    (Token.numeric_of_spells spells) read
  obtain ⟨l, value, closed⟩ := Source.exists_of_ofTokens ended
  exact ⟨c, l, e, steps, value, closed, answers⟩

/-- Parentheses around an atom with indifferent bounds do not change an answer, in any context. -/
theorem answers_parenthesized (indifferent : b.Indifferent) (denotes : b.Denotes bounds)
    (spells : Token.Spells x xs) (atom : Token.IsAtom xs) (before : Token.Spells left ls)
    (after : Token.Spells right rs)
    (made : ofText s (String.ofList (left ++ (Token.withBounds x bounds ++ right))) = .ok r)
    (made' : ofText s (String.ofList
      (left ++ (Token.parenthesized (Token.withBounds x bounds) ++ right))) = .ok r')
    (calls calls' : List Call) (call : Call) :
    (r.perform (r.memoryAfter calls) call).1 = (r'.perform (r'.memoryAfter calls') call).1 := by
  have quantified := Token.spells_withBounds spells denotes
  have grouped := Token.spells_parenthesized quantified
  obtain ⟨c, l, e, steps, value, closed, answers⟩ :=
    exists_level made (before.append (quantified.append after))
  obtain ⟨c', l', e', steps', value', closed', answers'⟩ :=
    exists_level made' (before.append (grouped.append after))
  have regrouped := Progress.regrouped_of_parentheses indifferent denotes atom steps steps'
  have alike : l.Alike l' := regrouped.current.alike value value'
  have spans := alike.close closed closed' call.haystack
  rw [Bool.eq_iff_iff, answers, answers', spans]

theorem spells_signs (op : Repetition) :
    Token.Spells [op.sign, '?'] [.repetition op, .repetition .option] :=
  .cons (Token.spelledBy_sign op) (Token.spelledBy_sign .option).spells

theorem not_answers_repeated {r₀ : Regex} {calls : List Call} {call : Call} (other : ¬b.Indifferent)
    (denotes : b.Denotes bounds) (spells : Token.Spells x xs) (atom : Token.IsAtom xs)
    (full : s.matchMode = .full) (made₀ : ofText s (String.ofList x) = .ok r₀)
    (never : (r₀.simulate r₀.newMemory []).1 = false)
    (made : ofText s (String.ofList (Token.withBounds x bounds ++ [op.sign, '?'])) = .ok r)
    (nothing : call.haystack = []) : (r.perform (r.memoryAfter calls) call).1 = false := by
  obtain ⟨c₀, l₀, e₀, steps₀, value₀, closed₀, answers₀⟩ := exists_level made₀ spells
  obtain ⟨c, l, e, steps, value, closed, answers⟩ :=
    exists_level made ((Token.spells_withBounds spells denotes).append (spells_signs op))
  rw [full] at answers₀ answers
  obtain ⟨a₀, row₀, alone₀⟩ := Progress.exists_atom atom steps₀
  cases row₀
  obtain ⟨p, through, repeats⟩ := steps.of_append
  obtain ⟨a, bounds₁, denotes₁, rfl, alone⟩ := Progress.exists_times denotes atom through
  cases repeats.eq_of_repetitions
  rw [Bool.eq_false_iff]
  intro found
  have span : e.Spans [] 0 0 := by simpa [MatchMode.Finds, nothing] using (answers calls call).1 found
  rw [Level.spans_of_close closed] at span
  obtain ⟨y, item, begins⟩ := Source.exists_span_of_repeated other value
  obtain ⟨k, first⟩ := begins [] 0 0 span
  obtain rfl : k = 0 := Nat.le_zero.1 (y.within_spans 0 k first).2
  -- the atom alone would match as well
  obtain ⟨_, opened, added⟩ := Option.bind_eq_some_iff.1 value₀
  cases opened
  obtain ⟨y₀, item₀, rfl⟩ := Option.map_eq_some_iff.1 added
  cases closed₀
  have alike : y₀.Alike y := (Progress.regrouped_atoms alone₀ alone).alike item₀ item
  rw [← alike] at first
  have matched := (answers₀ [] (.simulate [])).2 first
  exact absurd (never.symm.trans matched) Bool.false_ne_true

theorem answers_optional {calls : List Call} {call : Call} (denotes : b.Denotes bounds)
    (spells : Token.Spells x xs) (atom : Token.IsAtom xs) (full : s.matchMode = .full)
    (made : ofText s (String.ofList
      (Token.parenthesized (Token.withBounds x bounds) ++ [op.sign, '?'])) = .ok r)
    (nothing : call.haystack = []) : (r.perform (r.memoryAfter calls) call).1 = true := by
  have grouped := Token.spells_parenthesized (Token.spells_withBounds spells denotes)
  obtain ⟨c, l, e, steps, value, closed, answers⟩ := exists_level made (grouped.append (spells_signs op))
  obtain ⟨p, through, repeats⟩ := steps.of_append
  obtain ⟨a, bounds₁, denotes₁, rfl, alone⟩ := Progress.exists_group_times denotes atom through
  cases repeats.eq_of_repetitions
  rw [answers, full, nothing]
  exact Source.reflexive_of_option value closed [] 0 (Nat.le_refl 0)

/-- A repetition after an atom and its bounds repeats all of it, in any context, if the bounds let nothing
be there or ask for the atom once. After other bounds it repeats the last copy, which does not become
optional with it, and parentheses change the answer for the empty haystack. -/
theorem repetition_after_bounds (spells : Token.Spells x xs) (atom : Token.IsAtom xs)
    (denotes : b.Denotes bounds) (op : Repetition) :
    (b.Indifferent → ∀ (s : Settings) (left right : List Char) (ls rs : List Token) (r r' : Regex),
      Token.Spells left ls → Token.Spells right rs →
      ofText s (String.ofList (left ++ (Token.withBounds x bounds ++ op.sign :: right))) = .ok r →
      ofText s (String.ofList
        (left ++ (Token.parenthesized (Token.withBounds x bounds) ++ op.sign :: right))) = .ok r' →
      ∀ calls calls' call,
        (r.perform (r.memoryAfter calls) call).1 = (r'.perform (r'.memoryAfter calls') call).1) ∧
    (¬b.Indifferent → ∀ (s : Settings) (r₀ r r' : Regex), s.matchMode = .full →
      ofText s (String.ofList x) = .ok r₀ → (r₀.simulate r₀.newMemory []).1 = false →
      ofText s (String.ofList (Token.withBounds x bounds ++ [op.sign, '?'])) = .ok r →
      ofText s (String.ofList
        (Token.parenthesized (Token.withBounds x bounds) ++ [op.sign, '?'])) = .ok r' →
      ∀ calls calls' call, call.haystack = [] →
        (r.perform (r.memoryAfter calls) call).1 = false ∧
        (r'.perform (r'.memoryAfter calls') call).1 = true) := by
  constructor
  · intro indifferent s left right ls rs r r' before after made made'
    exact answers_parenthesized indifferent denotes spells atom before
      (.cons (Token.spelledBy_sign op) after) made made'
  · intro other s r₀ r r' full made₀ never made made' calls calls' call nothing
    exact ⟨not_answers_repeated other denotes spells atom full made₀ never made nothing,
      answers_optional denotes spells atom full made' nothing⟩

theorem repetition_after_bounds_of_copies :
    (∃ r r', ofText {} "b|(ac)\x7b0,2\x7d*d" = .ok r ∧ ofText {} "b|((ac)\x7b0,2\x7d)*d" = .ok r' ∧
      ∀ calls calls' call,
        (r.perform (r.memoryAfter calls) call).1 = (r'.perform (r'.memoryAfter calls') call).1) ∧
    ∃ r r', ofText {} "a\x7b2\x7d+?" = .ok r ∧ ofText {} "(a\x7b2\x7d)+?" = .ok r' ∧
      ∀ calls calls' call, call.haystack = [] →
        (r.perform (r.memoryAfter calls) call).1 = false ∧
        (r'.perform (r'.memoryAfter calls') call).1 = true := by
  have letter (c : Char) (plain : c ≠ '\\' ∧ c ≠ '[' ∧ c ≠ '\x7b') :
      Token.Spells [c] [Token.ofChar c] := (Token.SpelledBy.plain plain).spells
  constructor
  · have least : Bounds.Numeral ['0'] 0 := ⟨List.cons_ne_nil _ _, List.forall_mem_singleton.2 rfl, rfl⟩
    have most : Bounds.Numeral ['2'] 2 := ⟨List.cons_ne_nil _ _, List.forall_mem_singleton.2 rfl, rfl⟩
    have denotes := Bounds.Denotes.pair least most (by decide)
    have group := Token.spells_parenthesized
      ((letter 'a' (by decide)).append (letter 'c' (by decide)))
    have before := (letter 'b' (by decide)).append (letter '|' (by decide))
    have after := letter 'd' (by decide)
    have compiles : (ofText {} "b|(ac)\x7b0,2\x7d*d").isOk = true := by decide +kernel
    have compiles' : (ofText {} "b|((ac)\x7b0,2\x7d)*d").isOk = true := by decide +kernel
    obtain ⟨r, made⟩ := exists_of_isOk compiles
    obtain ⟨r', made'⟩ := exists_of_isOk compiles'
    exact ⟨r, r', made, made', (repetition_after_bounds group (.group (by decide)) denotes .star).1 (.inl rfl)
      {} _ _ _ _ r r' before after made made'⟩
  · have least : Bounds.Numeral ['2'] 2 := ⟨List.cons_ne_nil _ _, List.forall_mem_singleton.2 rfl, rfl⟩
    have atom := letter 'a' (by decide)
    have compiles₀ : (ofText {} "a").isOk = true := by decide +kernel
    have compiles : (ofText {} "a\x7b2\x7d+?").isOk = true := by decide +kernel
    have compiles' : (ofText {} "(a\x7b2\x7d)+?").isOk = true := by decide +kernel
    obtain ⟨r₀, made₀⟩ := exists_of_isOk compiles₀
    obtain ⟨r, made⟩ := exists_of_isOk compiles
    obtain ⟨r', made'⟩ := exists_of_isOk compiles'
    have never : (r₀.simulate r₀.newMemory []).1 = false := by
      have found : (ofText {} "a").toOption.map (fun r => (r.simulate r.newMemory []).1) = some false := by
        decide +kernel
      rw [made₀] at found
      exact Option.some.inj found
    have other : ¬(Bounds.atLeast 2).Indifferent := by simp [Bounds.Indifferent, Bounds.atLeast]
    exact ⟨r, r', made, made', (repetition_after_bounds atom (.operand _) (.single least) .plus).2 other {}
      r₀ r r' rfl made₀ never made made'⟩

/-- The last of two copies is repeated, so one has to be there, while a group of both need not be. -/
theorem repetition_of_last_copy : ∃ r r', ofText {} "a\x7b2\x7d*" = .ok r ∧
    ofText {} "(a\x7b2\x7d)*" = .ok r' ∧ (r.simulate r.newMemory []).1 = false ∧
    (r'.simulate r'.newMemory []).1 = true := by
  have never : (ofText {} "a\x7b2\x7d*").toOption.map (fun r => (r.simulate r.newMemory []).1) =
      some false := by decide +kernel
  have found : (ofText {} "(a\x7b2\x7d)*").toOption.map (fun r => (r.simulate r.newMemory []).1) =
      some true := by decide +kernel
  obtain ⟨r, made, answer⟩ := Option.map_eq_some_iff.1 never
  obtain ⟨r', made', answer'⟩ := Option.map_eq_some_iff.1 found
  exact ⟨r, r', ok_of_toOption made, ok_of_toOption made', answer, answer'⟩

end Regex

end ByteRegex
