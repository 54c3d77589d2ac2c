import ByteRegex.Proofs.Reading

/-! Tokens that can be written out and read are those of a pattern, unless a repetition follows a
quantifier. Where one does, it repeats the last copy only, and no tree says that. -/

namespace ByteRegex

/-- No repetition follows a quantifier directly. -/
def Token.Unrepeated (ts : List Token) : Prop :=
  ∀ text op, ¬ [quantifier text, repetition op] <:+: ts

theorem Token.Unrepeated.of_infix {ts us : List Token} (h : Unrepeated us) (part : ts <:+: us) :
    Unrepeated ts :=
  fun text op found => h text op (found.trans part)

def Passes (us : List Token) : Prop :=
  Reads us fun _ _ => True

variable {us vs : List Token}

theorem Passes.append (h : Passes us) (h' : Passes vs) : Passes (us ++ vs) :=
  (Reads.append h h').mono fun _ _ _ => trivial

theorem Passes.flatten_replicate (h : Passes us) (n : Nat) :
    Passes (List.replicate n us).flatten := by
  induction n with
  | zero => exact fun _ l _ _ read => ⟨l, trivial, read⟩
  | succ n ih =>
    rw [List.replicate_succ, List.flatten_cons]
    exact h.append ih

theorem passes_repetition (op : Repetition) : Passes [.repetition op] := by
  intro enclosing l rest e read
  simp only [List.singleton_append, Expr.read] at read
  split at read
  next => cases read
  next next _ => exact ⟨next, trivial, read⟩

theorem Passes.group (h : Passes us) : Passes (.groupOpen :: us ++ [.groupClose]) :=
  (Reads.parenthesized h).mono fun _ _ _ => trivial

theorem Passes.unroll (h : Passes us) (b : Bounds) : Passes (b.unroll us) := by
  refine (h.flatten_replicate b.least).append ?_
  split
  · exact h.append (passes_repetition .star)
  · exact (h.append (passes_repetition .option)).flatten_replicate _

theorem Source.passes_written {k : Extent} (x : Source k) : Passes x.written := by
  induction x with
  | operand item => exact fun _ _ _ _ read => ⟨_, trivial, read⟩
  | group inside ih => exact ih.group
  | empty => exact fun _ l _ _ read => ⟨l, trivial, read⟩
  | single before a ihb iha => exact ihb.append iha
  | times before a b bounds denotes ihb iha => exact ihb.append (iha.unroll b)
  | repetition before op ih => exact ih.append (passes_repetition op)
  | alternation before ih =>
    exact ih.append (Reads.alternation.mono fun _ _ _ => trivial)

theorem Bounds.exists_unroll_eq {b : Bounds} (h : b.most ≠ some 0) (atom : List Token) :
    ∃ rest, b.unroll atom = atom ++ rest := by
  obtain ⟨least, most, ordered⟩ := b
  cases least with
  | succ n => simp [unroll, List.replicate_succ]
  | zero =>
    cases most with
    | none => simp [unroll]
    | some n =>
      cases n with
      | zero => exact absurd rfl h
      | succ n => simp [unroll, List.replicate_succ]

/-- A pattern as far as it is read: the branches before the last bar, and the pieces after it. -/
structure Sketch where
  before : Option (Phrase .pattern)
  current : Option (Phrase .branch)

namespace Sketch

def tokens (k : Sketch) : List Token :=
  (k.before.elim [] fun p => p.tokens ++ [.alternation]) ++ k.current.elim [] Phrase.tokens

def append (k : Sketch) (x : Phrase .piece) : Sketch :=
  { k with current := some (k.current.elim (.first x) fun c => .next c x) }

theorem tokens_append (k : Sketch) (x : Phrase .piece) : (k.append x).tokens = k.tokens ++ x.tokens := by
  obtain ⟨before, current⟩ := k
  cases current <;> simp [append, tokens, Phrase.tokens]

theorem exists_pattern {k : Sketch} (h : k.current ≠ none) :
    ∃ p : Phrase .pattern, p.tokens = k.tokens := by
  obtain ⟨before, current⟩ := k
  cases current with
  | none => exact absurd rfl h
  | some c =>
    cases before with
    | none => exact ⟨.last c, rfl⟩
    | some p => exact ⟨.either p c, by simp [tokens, Phrase.tokens]⟩

end Sketch

theorem Phrase.exists_repeated (c : Phrase .branch) (op : Repetition) :
    (∃ d : Phrase .branch, d.tokens = c.tokens ++ [.repetition op]) ∨
      ∃ us text, c.tokens = us ++ [.quantifier text] := by
  have piece (x : Phrase .piece) : (∃ y : Phrase .piece, y.tokens = x.tokens ++ [.repetition op]) ∨
      ∃ us text, x.tokens = us ++ [.quantifier text] := by
    cases x with
    | plain x => exact .inl ⟨.plain (.repeated x op), rfl⟩
    | bounded x b bounds denotes => exact .inr ⟨_, _, rfl⟩
    | erased inside b bounds denotes zero => exact .inr ⟨_, _, rfl⟩
  cases c with
  | first x =>
    obtain ⟨y, repeated⟩ | quantified := piece x
    · exact .inl ⟨.first y, repeated⟩
    · exact .inr quantified
  | next before x =>
    obtain ⟨y, repeated⟩ | ⟨us, text, quantified⟩ := piece x
    · exact .inl ⟨.next before y, by simp [tokens, repeated]⟩
    · exact .inr ⟨before.tokens ++ us, text, by simp [tokens, quantified]⟩

namespace Source

/-- The tokens of a tree that can be read are those of a part of a pattern. A row that is read from
its beginning is a sketch, and its last branch has begun if there is anything in it. -/
def Parsed : {k : Extent} → Source k → Prop
  | .atom, a => ∀ enclosing l rest e, Expr.read enclosing l (a.written ++ rest) = .ok e →
    ∃ x : Phrase .item, x.tokens = a.tokens
  | .row, s => ∀ enclosing rest e, Expr.read enclosing .start (s.written ++ rest) = .ok e →
    ∃ (k : Sketch) (l : Level), k.tokens = s.tokens ∧ (k.current = none → l.branch = .empty) ∧
      Expr.read enclosing l rest = .ok e

theorem Parsed.exists_pattern {s : Source .row} (h : s.Parsed) {enclosing : List Level} {rest : List Token}
    {e : Expr} (read : Expr.read enclosing .start (s.written ++ rest) = .ok e)
    (ends : ∀ l, Expr.read enclosing l rest = .ok e → l.branch ≠ .empty) :
    ∃ p : Phrase .pattern, p.tokens = s.tokens := by
  obtain ⟨k, l, tokens, begun, read'⟩ := h enclosing rest e read
  rw [← tokens]
  exact k.exists_pattern fun none => ends l read' (begun none)

theorem Parsed.append {before s : Source .row} (h : before.Parsed) {us ts : List Token}
    (written : s.written = before.written ++ us) (tokens : s.tokens = before.tokens ++ ts)
    (passes : Passes us)
    (piece : ∀ enclosing l rest e, Expr.read enclosing l (us ++ rest) = .ok e →
      ∃ x : Phrase .piece, x.tokens = ts) : s.Parsed := by
  intro enclosing rest e read
  rw [written, List.append_assoc] at read
  obtain ⟨k, l, tokens', -, read₁⟩ := h enclosing _ e read
  obtain ⟨x, rfl⟩ := piece enclosing l rest e read₁
  obtain ⟨l', -, read₂⟩ := passes enclosing l rest e read₁
  exact ⟨k.append x, l', by rw [k.tokens_append, tokens', tokens], by simp [Sketch.append], read₂⟩

theorem Parsed.piece {a : Source .atom} (h : a.Parsed) {b : Bounds} {bounds : List Char}
    (denotes : b.Denotes bounds) {enclosing : List Level} {l : Level} {rest : List Token} {e : Expr}
    (read : Expr.read enclosing l (b.unroll a.written ++ rest) = .ok e) :
    ∃ x : Phrase .piece, x.tokens = a.tokens ++ [.ofBounds bounds] := by
  -- an erased group is never read, so nothing follows about the tokens in it
  by_cases zero : b.most = some 0
  · cases a with
    | operand item => exact ⟨.bounded (.operand item) b bounds denotes, rfl⟩
    | group inside => exact ⟨.erased inside b bounds denotes zero, rfl⟩
  · obtain ⟨copies, unrolled⟩ := Bounds.exists_unroll_eq zero a.written
    rw [unrolled, List.append_assoc] at read
    obtain ⟨x, tokens⟩ := h enclosing l _ e read
    exact ⟨.bounded x b bounds denotes, by rw [Phrase.tokens, tokens]⟩

theorem Parsed.repetition {before : Source .row} {op : Repetition} (h : before.Parsed)
    (unrepeated : Token.Unrepeated (before.repetition op).tokens) : (before.repetition op).Parsed := by
  intro enclosing rest e read
  rw [Source.written, List.append_assoc] at read
  obtain ⟨k, l, tokens, begun, read₁⟩ := h enclosing _ e read
  simp only [List.singleton_append, Expr.read] at read₁
  split at read₁
  next => cases read₁
  next l' repeated =>
    obtain ⟨rows, current⟩ := k
    cases current with
    | none =>
      have nothing : l.branch = .empty := begun rfl
      simp [Level.repeatLast?, nothing, Branch.repeatLast?] at repeated
    | some c =>
      obtain ⟨d, more⟩ | ⟨us, text, quantified⟩ := c.exists_repeated op
      · refine ⟨⟨rows, some d⟩, l', ?_, by simp, read₁⟩
        rw [Source.tokens, ← tokens]
        simp [Sketch.tokens, more]
      -- the quantifier at the end and the repetition would stand side by side
      · refine absurd ⟨rows.elim [] (fun p => p.tokens ++ [.alternation]) ++ us, [], ?_⟩
          (unrepeated text op)
        simp [Source.tokens, ← tokens, Sketch.tokens, quantified]

theorem Parsed.alternation {before : Source .row} (h : before.Parsed) : before.alternation.Parsed := by
  intro enclosing rest e read
  rw [Source.written, List.append_assoc] at read
  obtain ⟨k, l, tokens, begun, read₁⟩ := h enclosing _ e read
  simp only [List.singleton_append, Expr.read] at read₁
  split at read₁
  next => cases read₁
  next l' ended =>
    have branch := Level.branch_of_nextBranch? ended
    obtain ⟨p, rows⟩ := k.exists_pattern fun none => branch.1 (begun none)
    refine ⟨⟨p, none⟩, l', ?_, fun _ => branch.2, read₁⟩
    rw [Source.tokens, ← tokens, ← rows]
    simp [Sketch.tokens]

theorem parsed {k : Extent} (s : Source k) (h : Token.Unrepeated s.tokens) : s.Parsed := by
  induction s with
  | operand item => exact fun _ _ _ _ _ => ⟨.operand item, rfl⟩
  | group inside ih =>
    intro enclosing l rest e read
    have opened : Expr.read (l :: enclosing) .start (inside.written ++ (.groupClose :: rest)) = .ok e := by
      simpa [Source.written, Expr.read] using read
    have inner : inside.Parsed := ih (h.of_infix ⟨[.groupOpen], [.groupClose], rfl⟩)
    obtain ⟨p, tokens⟩ := inner.exists_pattern opened fun l' read' => by
      simp only [Expr.read] at read'
      split at read'
      next => cases read'
      next closed found => exact Level.branch_ne_of_close found
    exact ⟨.group p, by simp [Phrase.tokens, Source.tokens, tokens]⟩
  | empty => exact fun _ _ _ read => ⟨⟨none, none⟩, .start, rfl, fun _ => rfl, read⟩
  | single before a ihb iha =>
    have earlier : before.Parsed := ihb (h.of_infix (List.prefix_append _ _).isInfix)
    have atom : a.Parsed := iha (h.of_infix (List.suffix_append _ _).isInfix)
    refine earlier.append rfl rfl a.passes_written fun enclosing l rest e read => ?_
    obtain ⟨x, tokens⟩ := atom enclosing l rest e read
    exact ⟨.plain (.once x), tokens⟩
  | times before a b bounds denotes ihb iha =>
    have earlier : before.Parsed := ihb (h.of_infix (List.prefix_append _ _).isInfix)
    have atom : a.Parsed := iha (h.of_infix ⟨before.tokens, [.ofBounds bounds], by simp [tokens]⟩)
    refine earlier.append rfl rfl (a.passes_written.unroll b) fun _ _ _ _ read => ?_
    exact atom.piece denotes read
  | repetition before op ih =>
    have earlier : before.Parsed := ih (h.of_infix (List.prefix_append _ _).isInfix)
    exact earlier.repetition h
  | alternation before ih =>
    have earlier : before.Parsed := ih (h.of_infix (List.prefix_append _ _).isInfix)
    exact earlier.alternation

end Source

namespace Expansion

theorem strays_eq_nil {xs : List (Source .row)} {l : Level} {rest : List Token} {e : Expr}
    (h : Expr.read [] l (rows Source.written .groupClose xs ++ rest) = .ok e) : xs = [] := by
  induction xs generalizing l rest with
  | nil => rfl
  | cons x xs ih =>
    rw [rows, List.append_assoc] at h
    cases ih h
    simp only [rows, List.nil_append, List.append_assoc] at h
    obtain ⟨l', -, read⟩ := x.passes_written [] l _ e h
    cases read

theorem exists_enclosing {xs : List (Source .row)} {l : Level} {rest : List Token} {e : Expr}
    (h : Expr.read [] l (rows Source.written .groupOpen xs ++ rest) = .ok e) :
    ∃ enclosing l', enclosing.length = xs.length ∧ Expr.read enclosing l' rest = .ok e := by
  induction xs generalizing rest with
  | nil => exact ⟨[], l, rfl, h⟩
  | cons x xs ih =>
    rw [rows, List.append_assoc, List.append_assoc] at h
    obtain ⟨enclosing, l₁, same, read⟩ := ih h
    obtain ⟨l₂, -, read'⟩ := x.passes_written enclosing l₁ _ e read
    exact ⟨l₂ :: enclosing, .start, by simp [same], read'⟩

theorem Progress.eq_of_ofTokens {p : Progress} {e : Expr}
    (h : Expr.ofTokens (p.written ++ [.finish]) = .ok e) : p.strays = [] ∧ p.outer = [] := by
  obtain ⟨strays, outer, current⟩ := p
  simp only [Expr.ofTokens, written, List.append_assoc] at h
  cases strays_eq_nil h
  refine ⟨rfl, ?_⟩
  obtain ⟨enclosing, l, same, read⟩ := exists_enclosing h
  obtain ⟨l', -, ended⟩ := current.passes_written enclosing l _ e read
  cases enclosing with
  | nil => exact List.length_eq_zero_iff.1 same.symm
  | cons outer enclosing => cases ended

end Expansion

theorem Source.exists_of_ofQuantified {limit : Option Nat} {ts : List Token} {e : Expr}
    (noFinish : .finish ∉ ts) (numeric : Token.Numeric ts)
    (h : Expr.ofQuantified limit (ts ++ [.finish]) = .ok e) :
    ∃ s : Source .row, Expansion.Progress.Steps ⟨[], [], .empty⟩ ts ⟨[], [], s⟩ ∧
      Expr.ofTokens (s.written ++ [.finish]) = .ok e := by
  rw [Expr.ofQuantified_eq] at h
  obtain ⟨us, expanded, read⟩ := ok_of_bind h
  obtain ⟨made, steps, rfl⟩ := expand_finish expanded
  obtain ⟨⟨strays, outer, current⟩, progress, written⟩ :=
    Expansion.exists_steps (p := ⟨[], [], .empty⟩) noFinish numeric rfl rfl steps
  rw [written, List.reverse_reverse] at read
  obtain ⟨rfl, rfl⟩ := Expansion.Progress.eq_of_ofTokens read
  exact ⟨current, progress, read⟩

theorem Phrase.exists_of_ofQuantified {limit : Option Nat} {ts : List Token} {e : Expr}
    (noFinish : .finish ∉ ts) (numeric : Token.Numeric ts) (unrepeated : Token.Unrepeated ts)
    (h : Expr.ofQuantified limit (ts ++ [.finish]) = .ok e) :
    ∃ p : Phrase .pattern, p.tokens = ts := by
  obtain ⟨s, steps, read⟩ := Source.exists_of_ofQuantified noFinish numeric h
  have same : s.tokens = ts := steps.tokens_eq
  have parsed : s.Parsed := s.parsed (same ▸ unrepeated)
  rw [← same]
  exact parsed.exists_pattern read fun l ended => Level.branch_ne_of_close ended

end ByteRegex
