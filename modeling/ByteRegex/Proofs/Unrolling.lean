import ByteRegex.Pattern.Expansion
import ByteRegex.Pattern.Reading
import ByteRegex.Proofs.BoundsText

/-! Tokens in which every group is closed and every quantifier follows its atom, as trees. Writing
out the quantifiers of such tokens follows the tree, inner groups first. All tokens that can be
written out and then read are of this kind. -/

namespace ByteRegex

inductive Extent
  | atom
  | row

/-- Tokens in which groups are closed and quantifiers have atoms. Nothing else is asked of them. -/
inductive Source : Extent → Type
  | operand (item : Operand) : Source .atom
  | group (inside : Source .row) : Source .atom
  | empty : Source .row
  | single (before : Source .row) (a : Source .atom) : Source .row
  | times (before : Source .row) (a : Source .atom) (b : Bounds) (bounds : List Char)
      (denotes : b.Denotes bounds) : Source .row
  | repetition (before : Source .row) (op : Repetition) : Source .row
  | alternation (before : Source .row) : Source .row

namespace Source

def tokens {e : Extent} : Source e → List Token
  | operand item => [.operand item]
  | group inside => .groupOpen :: inside.tokens ++ [.groupClose]
  | empty => []
  | single before a => before.tokens ++ a.tokens
  | times before a _ bounds _ => before.tokens ++ (a.tokens ++ [.ofBounds bounds])
  | repetition before op => before.tokens ++ [.repetition op]
  | alternation before => before.tokens ++ [.alternation]

def written {e : Extent} : Source e → List Token
  | operand item => [.operand item]
  | group inside => .groupOpen :: inside.written ++ [.groupClose]
  | empty => []
  | single before a => before.written ++ a.written
  | times before a b _ _ => before.written ++ b.unroll a.written
  | repetition before op => before.written ++ [.repetition op]
  | alternation before => before.written ++ [.alternation]

def endsRepeated : Source .row → Bool
  | times _ _ _ _ _ => true
  | repetition _ _ => true
  | _ => false

end Source

namespace Expansion

/-- Whether a search backwards for the beginning of a group goes past the tokens. -/
def Neutral (us : List Token) : Prop :=
  ∀ depth inside before, splitGroup depth inside (us.reverse ++ before) =
    splitGroup depth (us ++ inside) before

variable {us vs : List Token}

theorem neutral_nil : Neutral [] :=
  fun _ _ _ => rfl

theorem Neutral.append (h : Neutral us) (h' : Neutral vs) : Neutral (us ++ vs) := by
  intro depth inside before
  rw [List.reverse_append, List.append_assoc, h', h, List.append_assoc]

theorem Neutral.flatten_replicate (h : Neutral us) (n : Nat) :
    Neutral (List.replicate n us).flatten := by
  induction n with
  | zero => exact neutral_nil
  | succ n ih =>
    rw [List.replicate_succ, List.flatten_cons]
    exact h.append ih

theorem neutral_operand (item : Operand) : Neutral [.operand item] :=
  fun _ _ _ => rfl

theorem neutral_repetition (op : Repetition) : Neutral [.repetition op] :=
  fun _ _ _ => rfl

theorem neutral_alternation : Neutral [.alternation] :=
  fun _ _ _ => rfl

theorem Neutral.group (h : Neutral us) : Neutral (.groupOpen :: us ++ [.groupClose]) := by
  intro depth inside before
  have parts : (Token.groupOpen :: us ++ [Token.groupClose]).reverse ++ before =
      .groupClose :: (us.reverse ++ .groupOpen :: before) := by simp
  rw [parts, splitGroup, h, splitGroup]
  simp

theorem Neutral.unroll (h : Neutral us) (b : Bounds) : Neutral (b.unroll us) := by
  refine (h.flatten_replicate b.least).append ?_
  split
  · exact h.append (neutral_repetition .star)
  · exact (h.append (neutral_repetition .option)).flatten_replicate _

theorem Neutral.splitAtom (h : Neutral us) (before : List Token) :
    splitAtom ((Token.groupOpen :: us ++ [Token.groupClose]).reverse ++ before) =
      .ok (.groupOpen :: us ++ [.groupClose], before) := by
  have parts : (Token.groupOpen :: us ++ [Token.groupClose]).reverse ++ before =
      .groupClose :: (us.reverse ++ .groupOpen :: before) := by simp
  rw [parts, Expansion.splitAtom, h, splitGroup]
  rfl

end Expansion

namespace Source

open Expansion

theorem neutral_written {e : Extent} (x : Source e) : Neutral x.written := by
  induction x with
  | operand item => exact neutral_operand item
  | group inside ih => exact ih.group
  | empty => exact neutral_nil
  | single before a ihb iha => exact ihb.append iha
  | times before a b bounds denotes ihb iha => exact ihb.append (iha.unroll b)
  | repetition before op ih => exact ih.append (neutral_repetition op)
  | alternation before ih => exact ih.append neutral_alternation

theorem splitAtom_written (a : Source .atom) (before : List Token) :
    splitAtom (a.written.reverse ++ before) = .ok (a.written, before) := by
  cases a with
  | operand item => rfl
  | group inside => exact inside.neutral_written.splitAtom before

end Source

namespace Expansion

variable {limit : Option Nat} {e e' : Expansion}

theorem step_plain {t : Token} (h : t.isQuantifier = false) :
    step limit e t = .ok (e.push t) := by
  cases t with
  | quantifier text => cases h
  | operand | repetition | groupOpen | groupClose | alternation | finish => rfl

theorem step_atom {text : String} {b : Bounds} {atom before : List Token}
    (fresh : e.afterRepetition = false) (read : Bounds.ofText text = .ok b)
    (split : splitAtom e.written = .ok (atom, before)) : step limit e (.quantifier text) =
      if exceeds (e.nodesAfter b atom) limit then .error .expansionTooLarge
      else .ok (e.unroll b atom before) := by
  simp only [step, fresh, read, split]
  rfl

theorem step_quantifier {text : String} (h : step limit e (.quantifier text) = .ok e') :
    e.afterRepetition = false ∧ ∃ b atom before, Bounds.ofText text = .ok b ∧
      splitAtom e.written = .ok (atom, before) ∧ e' = e.unroll b atom before := by
  simp only [step] at h
  split at h
  · cases h
  case isFalse fresh =>
    obtain ⟨b, read, rest⟩ := ok_of_bind h
    obtain ⟨⟨atom, before⟩, split, result⟩ := ok_of_bind rest
    refine ⟨by simpa using fresh, b, atom, before, read, split, ?_⟩
    simp only at result
    split at result
    · cases result
    · exact (Except.ok.inj result).symm

/-- All that a step can do: a token is written as it is, or copies come in the place of an atom. -/
theorem step_cases {t : Token} (h : step limit e t = .ok e') :
    t.isQuantifier = false ∧ e' = e.push t ∨
      ∃ text b atom before, t = .quantifier text ∧ e.afterRepetition = false ∧
        Bounds.ofText text = .ok b ∧ splitAtom e.written = .ok (atom, before) ∧
        e' = e.unroll b atom before := by
  cases t with
  | quantifier text =>
    obtain ⟨fresh, b, atom, before, read, split, result⟩ := step_quantifier h
    exact .inr ⟨text, b, atom, before, rfl, fresh, read, split, result⟩
  | operand | repetition | groupOpen | groupClose | alternation | finish =>
    exact .inl ⟨rfl, (Except.ok.inj h).symm⟩

theorem steps_append {ts us : List Token} (h : (ts ++ us).foldlM (step limit) e = .ok e') :
    ∃ e₁, ts.foldlM (step limit) e = .ok e₁ ∧ us.foldlM (step limit) e₁ = .ok e' := by
  rw [List.foldlM_append] at h
  exact ok_of_bind h

theorem steps_cons {t : Token} {us : List Token} (h : (t :: us).foldlM (step limit) e = .ok e') :
    ∃ e₁, step limit e t = .ok e₁ ∧ us.foldlM (step limit) e₁ = .ok e' := by
  rw [List.foldlM_cons] at h
  exact ok_of_bind h

theorem steps_append_ok {ts us : List Token} {e₁ : Expansion} (h : ts.foldlM (step limit) e = .ok e₁)
    (h' : us.foldlM (step limit) e₁ = .ok e') : (ts ++ us).foldlM (step limit) e = .ok e' := by
  rw [List.foldlM_append, h]
  exact h'

theorem steps_cons_ok {t : Token} {us : List Token} {e₁ : Expansion} (h : step limit e t = .ok e₁)
    (h' : us.foldlM (step limit) e₁ = .ok e') : (t :: us).foldlM (step limit) e = .ok e' := by
  rw [List.foldlM_cons, h]
  exact h'

theorem step_unlimited {t : Token} (h : step limit e t = .ok e') :
    step none e t = .ok e' := by
  cases t with
  | quantifier text =>
    obtain ⟨fresh, b, atom, before, read, split, rfl⟩ := step_quantifier h
    exact step_atom fresh read split
  | operand | repetition | groupOpen | groupClose | alternation | finish => exact h

theorem steps_unlimited {ts : List Token} (h : ts.foldlM (step limit) e = .ok e') :
    ts.foldlM (step none) e = .ok e' := by
  induction ts generalizing e with
  | nil =>
    cases h
    rfl
  | cons t ts ih =>
    obtain ⟨e₁, first, others⟩ := steps_cons h
    exact steps_cons_ok (step_unlimited first) (ih others)

/-- Writing out the tokens of a tree follows the tree. -/
theorem written_of_source {k : Extent} (x : Source k) (h : x.tokens.foldlM (step limit) e = .ok e') :
    e'.written = x.written.reverse ++ e.written := by
  induction x generalizing e e' with
  | operand item =>
    cases h
    rfl
  | group inside ih =>
    obtain ⟨e₁, opened, rest⟩ := steps_cons h
    obtain ⟨e₂, through, last⟩ := steps_append rest
    cases opened
    cases last
    simp [Source.written, ih through]
  | empty =>
    cases h
    rfl
  | single before a ihb iha =>
    obtain ⟨e₁, first, last⟩ := steps_append h
    rw [iha last, ihb first]
    simp [Source.written]
  | times before a b bounds denotes ihb iha =>
    obtain ⟨e₁, first, rest⟩ := steps_append h
    obtain ⟨e₂, atom, last⟩ := steps_append rest
    obtain ⟨e₃, quantified, done⟩ := steps_cons last
    cases done
    obtain ⟨-, b', atom', before', read, split, rfl⟩ := step_quantifier quantified
    -- what was split off is the atom of the tree, because nothing was written after it
    rw [iha atom, a.splitAtom_written] at split
    cases split
    rw [denotes.eq_of_ofText read, ihb first]
    simp [Source.written]
  | repetition before op ih =>
    obtain ⟨e₁, first, last⟩ := steps_append h
    cases last
    simp [Source.written, ih first]
  | alternation before ih =>
    obtain ⟨e₁, first, last⟩ := steps_append h
    cases last
    simp [Source.written, ih first]

/-- What was read so far: rows that a stray closing parenthesis ends, rows in which a group is open,
and the last row. The latest rows come first. -/
structure Progress where
  strays : List (Source .row)
  outer : List (Source .row)
  current : Source .row

def rows (tokens : Source .row → List Token) (after : Token) : List (Source .row) → List Token
  | [] => []
  | x :: xs => rows tokens after xs ++ (tokens x ++ [after])

namespace Progress

def tokens (p : Progress) : List Token :=
  rows Source.tokens .groupClose p.strays ++
    (rows Source.tokens .groupOpen p.outer ++ p.current.tokens)

def written (p : Progress) : List Token :=
  rows Source.written .groupClose p.strays ++
    (rows Source.written .groupOpen p.outer ++ p.current.written)

def push (p : Progress) : Token → Progress
  | .operand item => { p with current := .single p.current (.operand item) }
  | .repetition op => { p with current := .repetition p.current op }
  | .alternation => { p with current := .alternation p.current }
  | .groupOpen => { p with outer := p.current :: p.outer, current := .empty }
  | .groupClose =>
    match p.outer with
    | [] => { p with strays := p.current :: p.strays, current := .empty }
    | x :: xs => { p with outer := xs, current := .single x (.group p.current) }
  | _ => p

theorem push_eq (p : Progress) {t : Token} (h : t.isQuantifier = false) (h' : t ≠ .finish) :
    (p.push t).tokens = p.tokens ++ [t] ∧ (p.push t).written = p.written ++ [t] ∧
      (p.push t).current.endsRepeated = t.isRepetition := by
  cases t with
  | quantifier text => cases h
  | finish => exact absurd rfl h'
  | operand item | repetition op | alternation | groupOpen =>
    simp [push, tokens, written, rows, Source.tokens, Source.written, Source.endsRepeated,
      Token.isRepetition]
  | groupClose =>
    obtain ⟨strays, outer, current⟩ := p
    cases outer <;>
      simp [push, tokens, written, rows, Source.tokens, Source.written, Source.endsRepeated,
        Token.isRepetition]

end Progress

theorem splitGroup_strays (xs : List (Source .row)) (depth : Nat) (inside : List Token) :
    splitGroup depth inside (rows Source.written .groupClose xs).reverse = .error .unbalancedGroup := by
  induction xs generalizing depth inside with
  | nil => rfl
  | cons x xs ih =>
    have parts : (rows Source.written .groupClose (x :: xs)).reverse =
        .groupClose :: (x.written.reverse ++ (rows Source.written .groupClose xs).reverse) := by
      simp [rows]
    rw [parts, splitGroup, x.neutral_written, ih]

theorem exists_of_splitAtom {p : Progress} {atom before : List Token}
    (fresh : p.current.endsRepeated = false)
    (h : splitAtom p.written.reverse = .ok (atom, before)) :
    ∃ x a, p.current = .single x a ∧ atom = a.written ∧
      before = (Progress.written { p with current := x }).reverse := by
  obtain ⟨strays, outer, current⟩ := p
  cases current with
  | single x a =>
    have parts : (Progress.written ⟨strays, outer, .single x a⟩).reverse =
        a.written.reverse ++ (Progress.written ⟨strays, outer, x⟩).reverse := by
      simp [Progress.written, Source.written]
    rw [parts, a.splitAtom_written] at h
    cases h
    exact ⟨x, a, rfl, rfl, rfl⟩
  | times | repetition => cases fresh
  | alternation x => simp [Progress.written, Source.written, splitAtom] at h
  | empty =>
    cases outer with
    | cons x xs => simp [Progress.written, Source.written, rows, splitAtom] at h
    | nil =>
      cases strays with
      | nil => simp [Progress.written, Source.written, rows, splitAtom] at h
      | cons x xs =>
        have parts : (Progress.written ⟨x :: xs, [], .empty⟩).reverse =
            .groupClose :: (x.written.reverse ++ (rows Source.written .groupClose xs).reverse) := by
          simp [Progress.written, Source.written, rows]
        rw [parts, splitAtom, x.neutral_written, splitGroup_strays] at h
        cases h

namespace Progress

/-- The progress when one more token is read. A quantifier needs an atom right before it. -/
inductive Step (p : Progress) : Token → Progress → Prop
  | plain {t : Token} (plain : t.isQuantifier = false) (other : t ≠ .finish) : Step p t (p.push t)
  | times {x : Source .row} {a : Source .atom} {b : Bounds} {bounds : List Char} {text : String}
      (last : p.current = .single x a) (same : Token.quantifier text = .ofBounds bounds)
      (read : Bounds.ofText text = .ok b) (denotes : b.Denotes bounds) :
      Step p (.quantifier text) { p with current := .times x a b bounds denotes }

inductive Steps : Progress → List Token → Progress → Prop
  | refl (p : Progress) : Steps p [] p
  | head {p q r : Progress} {t : Token} {ts : List Token} (first : p.Step t q) (rest : Steps q ts r) :
      Steps p (t :: ts) r

variable {p q r : Progress}

theorem Step.tokens_eq {t : Token} (h : p.Step t q) : q.tokens = p.tokens ++ [t] := by
  cases h with
  | plain plain other => exact (p.push_eq plain other).1
  | times last same read denotes => simp [tokens, last, Source.tokens, same]

theorem Steps.tokens_eq {ts : List Token} (h : Steps p ts q) : q.tokens = p.tokens ++ ts := by
  induction h with
  | refl p => simp
  | head first rest ih => simp [ih, first.tokens_eq]

theorem Steps.of_append {ts us : List Token} (h : Steps p (ts ++ us) r) :
    ∃ q, Steps p ts q ∧ Steps q us r := by
  induction ts generalizing p with
  | nil => exact ⟨p, .refl p, h⟩
  | cons t ts ih =>
    cases h with
    | head first rest =>
      obtain ⟨q, through, last⟩ := ih rest
      exact ⟨q, .head first through, last⟩

end Progress

/-- Whatever can be written out is progress of some kind. -/
theorem exists_step {t : Token} (other : t ≠ .finish) (numeric : Token.Numeric [t]) {p : Progress}
    (laid : e.written = p.written.reverse) (flag : e.afterRepetition = p.current.endsRepeated)
    (h : step limit e t = .ok e') : ∃ q, p.Step t q ∧ e'.written = q.written.reverse ∧
      e'.afterRepetition = q.current.endsRepeated := by
  obtain ⟨plain, rfl⟩ | ⟨text, b, atom, before, rfl, fresh, read, split, rfl⟩ := step_cases h
  · have pushed := p.push_eq plain other
    refine ⟨p.push t, .plain plain other, ?_, pushed.2.2.symm⟩
    rw [pushed.2.1, e.push_written, laid, List.reverse_append]
    rfl
  · rw [flag] at fresh
    rw [laid] at split
    -- the last atom written is that of the current row, which no stray parenthesis ends
    obtain ⟨x, a, current, rfl, rfl⟩ := exists_of_splitAtom fresh split
    obtain ⟨bounds, rfl, digits⟩ := numeric text (List.mem_cons_self ..)
    refine ⟨_, .times current rfl read (Bounds.denotes_of_ofText digits read), ?_, rfl⟩
    simp [Progress.written, Source.written]

theorem exists_steps {ts : List Token} (noFinish : .finish ∉ ts) (numeric : Token.Numeric ts)
    {p : Progress} (laid : e.written = p.written.reverse)
    (flag : e.afterRepetition = p.current.endsRepeated)
    (h : ts.foldlM (step limit) e = .ok e') :
    ∃ q, Progress.Steps p ts q ∧ e'.written = q.written.reverse := by
  induction ts generalizing e p with
  | nil =>
    cases h
    exact ⟨p, .refl p, laid⟩
  | cons t ts ih =>
    obtain ⟨e₁, first, rest⟩ := steps_cons h
    simp only [List.mem_cons, not_or] at noFinish
    have one : Token.Numeric [t] := fun text same =>
      numeric text (List.mem_singleton.1 same ▸ List.mem_cons_self ..)
    have others : Token.Numeric ts := fun text later => numeric text (List.mem_cons_of_mem t later)
    obtain ⟨q, step, laid', flag'⟩ := exists_step (Ne.symm noFinish.1) one laid flag first
    obtain ⟨r, steps, written⟩ := ih noFinish.2 others laid' flag' rest
    exact ⟨r, .head step steps, written⟩

end Expansion

theorem expand_finish {limit : Option Nat} {ts us : List Token}
    (h : expand limit (ts ++ [.finish]) = .ok us) :
    ∃ e, ts.foldlM (Expansion.step limit) .start = .ok e ∧
      us = e.written.reverse ++ [.finish] := by
  obtain ⟨e, steps, rfl⟩ := ok_of_map h
  obtain ⟨e₁, first, last⟩ := Expansion.steps_append steps
  cases last
  exact ⟨e₁, first, by simp⟩

theorem Expansion.steps_plain {limit : Option Nat} {ts : List Token}
    (plain : ∀ t ∈ ts, t.isQuantifier = false) (e : Expansion) :
    ∃ e', ts.foldlM (step limit) e = .ok e' ∧ e'.written = ts.reverse ++ e.written := by
  induction ts generalizing e with
  | nil => exact ⟨e, rfl, rfl⟩
  | cons t ts ih =>
    rw [List.forall_mem_cons] at plain
    obtain ⟨e', rest, written⟩ := ih plain.2 (e.push t)
    exact ⟨e', steps_cons_ok (step_plain plain.1) rest, by simp [written]⟩

theorem expand_plain {limit : Option Nat} {ts : List Token}
    (plain : ∀ t ∈ ts, t.isQuantifier = false) : expand limit ts = .ok ts := by
  obtain ⟨e, done, written⟩ := Expansion.steps_plain plain .start
  rw [expand, done]
  simp [Except.map, written]

theorem Expr.ofQuantified_eq (limit : Option Nat) (ts : List Token) :
    ofQuantified limit ts = (expand limit ts).bind ofTokens := by
  unfold ofQuantified
  split
  case isTrue => rfl
  case isFalse plain =>
    rw [expand_plain (by simpa using plain)]
    rfl

end ByteRegex
