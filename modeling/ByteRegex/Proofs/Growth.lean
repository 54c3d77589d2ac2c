import ByteRegex.Proofs.NodeLimit
import ByteRegex.Proofs.Regrouping
import ByteRegex.Proofs.Rendering
import ByteRegex.Proofs.Trees
import Mathlib.Tactic.Linarith

/-! How many tokens there can be when quantifiers are written out within a limit on nodes. The limit
bounds the copies of an atom if a copy has a node, and then each token that is read stands for no more
tokens than the limit allows nodes. Parentheses alone have no nodes. A group with nothing else in it passes
under every limit and is copied as often as the bounds say, so tokens can be more than the limit allows as
soon as there may be two copies without an operator between them. -/

namespace ByteRegex

namespace Bounds

variable {b : Bounds}

theorem length_unroll (b : Bounds) (atom : List Token) :
    (b.unroll atom).length = b.unrolledCost atom.length :=
  measure_unroll (fun _ _ => List.length_append) (fun _ => rfl) b atom

/-- Whether more copies of an atom cost more nodes. If the atom has none then every copy but one has to
have an operator after it. -/
def Pays (b : Bounds) (atomCost : Nat) : Prop :=
  atomCost = 0 → b.Indifferent

theorem Indifferent.copies_le (h : b.Indifferent) : b.least + b.extra ≤ max b.extra 1 := by
  obtain ⟨least, most, ordered⟩ := b
  obtain rfl | rfl := h
  · rw [Nat.zero_add]
    exact Nat.le_max_left _ _
  · have bound := ordered 1 rfl
    simp only [extra]
    omega

theorem exists_of_not_indifferent (h : ¬b.Indifferent) :
    0 < b.least ∧ b.most ≠ some 0 ∧ (b.extra = 0 → 2 ≤ b.least) := by
  obtain ⟨least, most, ordered⟩ := b
  simp only [Indifferent, not_or] at h
  refine ⟨Nat.pos_of_ne_zero h.1, ?_, ?_⟩
  · rintro rfl
    exact h.1 (Nat.le_zero.1 (ordered 0 rfl))
  · intro all
    cases most with
    | none => cases all
    | some most =>
      have positive : least ≠ 0 := h.1
      have other : most ≠ 1 := fun one => h.2 (congrArg some one)
      have copies : most = least := Nat.le_antisymm (Nat.le_of_sub_eq_zero all) (ordered most rfl)
      show 2 ≤ least
      omega

theorem Pays.unrolledCost_le {n c k : Nat} (h : b.Pays c) (dense : n ≤ k * max c 1) :
    b.unrolledCost n ≤ (k + 1) * max (b.unrolledCost c) 1 := by
  have copies : n * (b.least + b.extra) ≤ k * max (b.unrolledCost c) 1 := by
    obtain rfl | pos := Nat.eq_zero_or_pos c
    · rw [unrolledCost, Nat.zero_mul, Nat.zero_add]
      exact Nat.mul_le_mul (by simpa using dense) (h rfl).copies_le
    · rw [Nat.max_eq_left pos] at dense
      calc n * (b.least + b.extra)
          ≤ k * c * (b.least + b.extra) := Nat.mul_le_mul_right _ dense
        _ = k * (c * (b.least + b.extra)) := Nat.mul_assoc ..
        _ ≤ k * max (b.unrolledCost c) 1 :=
          Nat.mul_le_mul_left k (Nat.le_trans (Nat.le_add_right _ _) (Nat.le_max_left _ _))
  have operators : b.extra ≤ max (b.unrolledCost c) 1 :=
    Nat.le_trans (Nat.le_add_left _ _) (Nat.le_max_left _ _)
  rw [Nat.succ_mul]
  exact Nat.add_le_add copies operators

end Bounds

namespace Expansion

variable {ts us ts' us' : List Token}

/-- Whether the tokens written are no more than the tokens read times the nodes, of which there is always
the accepting one. -/
def Compact (read written : List Token) : Prop :=
  written.length ≤ read.length * max (cost written) 1

theorem compact_nil : Compact [] [] :=
  Nat.zero_le _

theorem compact_singleton (t : Token) : Compact [t] [t] := by
  rw [Compact, List.length_singleton, Nat.one_mul]
  exact Nat.le_max_right _ _

theorem Compact.append (h : Compact ts us) (h' : Compact ts' us') : Compact (ts ++ ts') (us ++ us') := by
  have more : max (cost us) 1 ≤ max (cost us + cost us') 1 := by omega
  have more' : max (cost us') 1 ≤ max (cost us + cost us') 1 := by omega
  rw [Compact, List.length_append, List.length_append, cost_append, Nat.add_mul]
  exact Nat.add_le_add (Nat.le_trans h (Nat.mul_le_mul_left _ more))
    (Nat.le_trans h' (Nat.mul_le_mul_left _ more'))

theorem Compact.unroll (h : Compact ts us) (t : Token) {b : Bounds} (pays : b.Pays (cost us)) :
    Compact (ts ++ [t]) (b.unroll us) := by
  rw [Compact, Bounds.length_unroll, Bounds.cost_unroll, List.length_append]
  exact pays.unrolledCost_le h

end Expansion

namespace Source

open Expansion

def Pays {k : Extent} : Source k → Prop
  | operand _ => True
  | group inside => inside.Pays
  | empty => True
  | single before a => before.Pays ∧ a.Pays
  | times before a b _ _ => before.Pays ∧ a.Pays ∧ b.Pays (cost a.written)
  | repetition before _ => before.Pays
  | alternation before => before.Pays

theorem compact {k : Extent} (x : Source k) (h : x.Pays) : Compact x.tokens x.written := by
  induction x with
  | operand item => exact compact_singleton _
  | group inside ih =>
    exact ((compact_singleton .groupOpen).append (ih h)).append (compact_singleton .groupClose)
  | empty => exact compact_nil
  | single before a ihb iha => exact (ihb h.1).append (iha h.2)
  | times before a b bounds denotes ihb iha => exact (ihb h.1).append ((iha h.2.1).unroll _ h.2.2)
  | repetition before op ih => exact (ih h).append (compact_singleton _)
  | alternation before ih => exact (ih h).append (compact_singleton _)

end Source

namespace Expansion

variable {ts us : List Token} {e e' : Expansion} {limit : Nat}

namespace Progress

structure Pays (p : Progress) : Prop where
  strays : ∀ x ∈ p.strays, x.Pays
  outer : ∀ x ∈ p.outer, x.Pays
  current : p.current.Pays

theorem compact_rows (after : Token) {xs : List (Source .row)} (h : ∀ x ∈ xs, x.Pays) :
    Compact (rows Source.tokens after xs) (rows Source.written after xs) := by
  induction xs with
  | nil => exact compact_nil
  | cons x xs ih =>
    rw [List.forall_mem_cons] at h
    exact (ih h.2).append ((x.compact h.1).append (compact_singleton after))

theorem Pays.compact {p : Progress} (h : p.Pays) : Compact p.tokens p.written :=
  (compact_rows _ h.strays).append ((compact_rows _ h.outer).append (p.current.compact h.current))

theorem Pays.push {p : Progress} (h : p.Pays) (t : Token) : (p.push t).Pays := by
  obtain ⟨strays, outer, current⟩ := p
  obtain ⟨paid, paid', paid''⟩ := h
  cases t with
  | operand item => exact ⟨paid, paid', paid'', trivial⟩
  | repetition op | alternation => exact ⟨paid, paid', paid''⟩
  | groupOpen => exact ⟨paid, List.forall_mem_cons.2 ⟨paid'', paid'⟩, trivial⟩
  | groupClose =>
    cases outer with
    | nil => exact ⟨List.forall_mem_cons.2 ⟨paid'', paid⟩, paid', trivial⟩
    | cons x xs =>
      rw [List.forall_mem_cons] at paid'
      exact ⟨paid, paid'.2, paid'.1, paid''⟩
  | quantifier | finish => exact ⟨paid, paid', paid''⟩

end Progress

def freeCopies (e : Expansion) : Token → List Bounds
  | .quantifier text =>
    match Bounds.ofText text, splitAtom e.written with
    | .ok b, .ok (atom, _) => if cost atom = 0 then [b] else []
    | _, _ => []
  | _ => []

/-- The bounds of all quantifiers that ask for copies of atoms without nodes, at the moments when they are
reached. -/
def freeBounds (e : Expansion) : List Token → List Bounds
  | [] => []
  | t :: ts => e.freeCopies t ++ match step none e t with
    | .ok e' => e'.freeBounds ts
    | .error _ => []

theorem pays_of_step {p q : Progress} {t : Token} (laid : e.written = p.written.reverse) (h : p.Pays)
    (spare : ∀ b ∈ e.freeCopies t, b.Fits → b.Indifferent) (next : p.Step t q) : q.Pays := by
  cases next with
  | plain plain other => exact h.push t
  | @times x a b bounds text last same read denotes =>
    have parts : e.written = a.written.reverse ++ (Progress.written { p with current := x }).reverse := by
      simp [laid, Progress.written, last, Source.written]
    have current : (Source.single x a).Pays := last ▸ h.current
    refine ⟨h.strays, h.outer, current.1, current.2, fun free => spare b ?_ (Bounds.fits_of_ofText read)⟩
    simp [freeCopies, read, parts, a.splitAtom_written, free]

theorem freeBounds_cons {t : Token} (h : step none e t = .ok e') (ts : List Token) :
    e.freeBounds (t :: ts) = e.freeCopies t ++ e'.freeBounds ts := by
  rw [freeBounds, h]

theorem freeBounds_append (h : ts.foldlM (step none) e = .ok e') (us : List Token) :
    e.freeBounds (ts ++ us) = e.freeBounds ts ++ e'.freeBounds us := by
  induction ts generalizing e with
  | nil =>
    cases h
    rfl
  | cons t ts ih =>
    obtain ⟨e₁, first, others⟩ := steps_cons h
    rw [List.cons_append, freeBounds_cons first, freeBounds_cons first, ih others, List.append_assoc]

theorem freeBounds_of_plain (plain : Plain ts) (e : Expansion) : e.freeBounds ts = [] := by
  induction ts generalizing e with
  | nil => rfl
  | cons t ts ih =>
    have others := List.forall_mem_cons.1 plain
    rw [freeBounds_cons (step_plain others.1), ih others.2]
    cases t with
    | quantifier text => cases others.1
    | operand | repetition | groupOpen | groupClose | alternation | finish => rfl

/-- What a step writes stays within the limit for each token read. A plain token is one more, and after a
quantifier the limit was checked against all that is written. -/
theorem length_of_step {p q : Progress} {t : Token} (counted : Counted limit (t :: ts) e)
    (laid : e'.written = q.written.reverse) (h' : q.Pays) (next : p.Step t q)
    (short : e.written.length ≤ p.tokens.length * max limit 1)
    (h : step (some limit) e t = .ok e') : e'.written.length ≤ q.tokens.length * max limit 1 := by
  cases next with
  | plain plain other =>
    rw [step_plain plain] at h
    cases h
    rw [(p.push_eq plain other).1, push_written, List.length_append, Nat.add_mul, List.length_cons,
      List.length_singleton, Nat.one_mul]
    exact Nat.add_le_add short (Nat.le_max_right _ _)
  | times last same read denotes =>
    have room := (counted.step h).2 rfl
    rw [laid, cost_reverse] at room
    rw [laid, List.length_reverse]
    exact Nat.le_trans h'.compact (Nat.mul_le_mul_left _ (by omega))

theorem length_of_steps (counted : Counted limit ts e) (noFinish : .finish ∉ ts)
    (numeric : Token.Numeric ts) {p : Progress} (laid : e.written = p.written.reverse)
    (flag : e.afterRepetition = p.current.endsRepeated)
    (paid : p.Pays) (spare : ∀ b ∈ e.freeBounds ts, b.Fits → b.Indifferent)
    (short : e.written.length ≤ p.tokens.length * max limit 1)
    (h : ts.foldlM (step (some limit)) e = .ok e') :
    e'.written.length ≤ (p.tokens.length + ts.length) * max limit 1 := by
  induction ts generalizing e p with
  | nil =>
    cases h
    exact short
  | cons t ts ih =>
    obtain ⟨e₁, first, others⟩ := steps_cons h
    simp only [List.mem_cons, not_or] at noFinish
    have one : Token.Numeric [t] := fun text same =>
      numeric text (List.mem_singleton.1 same ▸ List.mem_cons_self ..)
    rw [freeBounds_cons (step_unlimited first), List.forall_mem_append] at spare
    obtain ⟨q, next, laid', flag'⟩ := exists_step (Ne.symm noFinish.1) one laid flag first
    have paid' := pays_of_step laid paid spare.1 next
    have short' := length_of_step counted laid' paid' next short first
    have others' : Token.Numeric ts := fun text later => numeric text (List.mem_cons_of_mem t later)
    have rest :=
      ih (counted.step first).1 noFinish.2 others' laid' flag' paid' spare.2 short' others
    rw [next.tokens_eq, List.length_append] at rest
    rw [List.length_cons, Nat.add_comm ts.length, ← Nat.add_assoc]
    exact rest

end Expansion

namespace Bounds

/-- Whether the operators of three atoms, copied as the bounds say, can be counted. -/
def Countable (b : Bounds) : Prop :=
  3 * b.extra + 1 < Counter.greatest

def thrice : Bounds :=
  ⟨3, some 3, fun _ same => Nat.le_of_eq (Option.some.inj same)⟩

theorem fits_thrice : thrice.Fits :=
  ⟨by decide, fun _ same => Option.some.inj same ▸ by decide⟩

theorem unrolledCost_thrice (n : Nat) : thrice.unrolledCost n = n * 3 :=
  rfl

theorem numeral_toDigits (n : Nat) : Numeral (Nat.toDigits 10 n) n :=
  ⟨Nat.toDigits_ne_nil, fun _ member => Nat.isDigit_of_mem_toDigits (by decide) (by decide) member,
    Nat.ofDigitChars_toDigits (by decide) (by decide)⟩

theorem exists_denotes (b : Bounds) : ∃ inside, b.Denotes inside := by
  obtain ⟨least, none | most, ordered⟩ := b
  · exact ⟨_, .single (numeral_toDigits least)⟩
  · exact ⟨_, .pair (numeral_toDigits least) (numeral_toDigits most) (ordered most rfl)⟩

theorem Fits.exists_quantifier (fits : b.Fits) :
    ∃ q : Quantifier, q.bounds = b ∧ (Token.quantifier q.text).Lexical := by
  obtain ⟨inside, denotes⟩ := b.exists_denotes
  exact ⟨⟨_, b, denotes.ofText_eq_ok fits⟩, rfl, Token.lexical_of_spelledBy (.bounds denotes.numeric)⟩

end Bounds

theorem Quantifier.not_erases (q : Quantifier) (kept : q.bounds.most ≠ some 0) :
    ¬(Token.quantifier q.text).Erases := by
  rintro ⟨text, b, same, read, zero⟩
  cases same
  cases q.valid.symm.trans read
  exact kept zero

namespace PatternTree

open Expansion

def freeBounds {l : Layer} : PatternTree l → List Bounds
  | operand _ => []
  | group inside => inside.freeBounds
  | empty => []
  | piece before x none _ => before.freeBounds ++ x.freeBounds
  | piece before x (some q) _ =>
    before.freeBounds ++ x.freeBounds ++ if cost x.unrolled = 0 then [q.bounds] else []
  | single x => x.freeBounds
  | either before x => before.freeBounds ++ x.freeBounds

theorem freeBounds_tokens {l : Layer} (x : PatternTree l) (e : Expansion) :
    e.freeBounds x.tokens = x.freeBounds := by
  induction x generalizing e with
  | operand x => rfl
  | group inside ih =>
    obtain ⟨e₁, through, -⟩ := inside.steps_unrolled (e.push .groupOpen)
    have opened : step none e .groupOpen = .ok (e.push .groupOpen) := rfl
    rw [tokens, List.cons_append, freeBounds_cons opened, freeBounds_append through, ih]
    exact List.append_nil _
  | empty => rfl
  | piece before x q ops ihb ih =>
    obtain ⟨e₁, earlier, -⟩ := before.steps_unrolled e
    obtain ⟨e₂, item, written, fresh⟩ := x.steps_unrolled e₁
    have plain : Plain (ops.map Token.repetition) := by simp [Plain, Token.isQuantifier]
    cases q with
    | none =>
      rw [tokens, List.append_assoc, List.append_assoc, freeBounds_append earlier, freeBounds_append item,
        ihb, ih]
      simp [freeBounds, freeBounds_of_plain plain]
    | some q =>
      have quantified := x.step_unrolled q written (fresh rfl)
      rw [tokens, List.append_assoc, List.append_assoc, freeBounds_append earlier, freeBounds_append item,
        ihb, ih]
      simp [freeBounds, freeBounds_cons quantified, freeBounds_of_plain plain, freeCopies, q.valid, written,
        x.splitAtom_unrolled]
  | single x ih => exact ih e
  | either before x ihb ih =>
    obtain ⟨e₁, earlier, -⟩ := before.steps_unrolled e
    have next : step none e₁ .alternation = .ok (e₁.push .alternation) := rfl
    rw [tokens, freeBounds_append earlier, freeBounds_cons next, ihb, ih]
    rfl

def hollow : Nat → PatternTree .item
  | 0 => .group (.single .empty)
  | n + 1 => .group (.single (.piece .empty (hollow n) none []))

theorem unrolled_hollow (n : Nat) : (hollow n).unrolled = (hollow n).tokens := by
  induction n with
  | zero => rfl
  | succ n ih => simp [hollow, unrolled, tokens, ih]

theorem length_hollow (n : Nat) : (hollow n).tokens.length = 2 * n + 2 := by
  induction n with
  | zero => rfl
  | succ n ih =>
    simp [hollow, tokens, ih]
    omega

theorem parenthesis_of_hollow (n : Nat) : ∀ t ∈ (hollow n).tokens, t = .groupOpen ∨ t = .groupClose := by
  induction n with
  | zero => simp [hollow, tokens]
  | succ n ih =>
    have tokens_succ : (hollow (n + 1)).tokens = .groupOpen :: (hollow n).tokens ++ [.groupClose] := by
      simp [hollow, tokens]
    rw [tokens_succ, List.forall_mem_append, List.forall_mem_cons, List.forall_mem_singleton]
    exact ⟨⟨.inl rfl, ih⟩, .inr rfl⟩

theorem cost_hollow (n : Nat) : cost (hollow n).tokens = 0 := by
  induction n with
  | zero => rfl
  | succ n ih => simpa [hollow, tokens, cost_append] using ih

theorem freeBounds_hollow (n : Nat) : (hollow n).freeBounds = [] := by
  induction n with
  | zero => rfl
  | succ n ih => simpa [hollow, freeBounds] using ih

/-- Copies of parentheses around nothing in a group that is copied itself. -/
def hollowTwice (n : Nat) (q o : Quantifier) : PatternTree .choice :=
  .single (.piece .empty (.group (.single (.piece .empty (hollow n) (some q) []))) (some o) [])

section hollowTwice

variable (n : Nat) (q o : Quantifier)

theorem tokens_hollowTwice : (hollowTwice n q o).tokens = .groupOpen :: (hollow n).tokens ++
    [.quantifier q.text, .groupClose, .quantifier o.text] := by
  simp [hollowTwice, tokens]

theorem unrolled_hollowTwice : (hollowTwice n q o).unrolled =
    o.bounds.unroll (.groupOpen :: q.bounds.unroll (hollow n).tokens ++ [.groupClose]) := by
  simp [hollowTwice, unrolled, unrolled_hollow, Bounds.unroll_eq_inFull]

theorem cost_hollowTwice :
    cost (hollowTwice n q o).unrolled = o.bounds.unrolledCost q.bounds.extra := by
  simp [unrolled_hollowTwice, Bounds.cost_unroll, cost_append, cost_hollow, Bounds.unrolledCost]

theorem length_hollowTwice : (hollowTwice n q o).unrolled.length =
    o.bounds.unrolledCost (q.bounds.unrolledCost (2 * n + 2) + 2) := by
  simp [unrolled_hollowTwice, Bounds.length_unroll, length_hollow]

theorem freeBounds_hollowTwice : (hollowTwice n q o).freeBounds =
    q.bounds :: if q.bounds.extra = 0 then [o.bounds] else [] := by
  simp [hollowTwice, freeBounds, freeBounds_hollow, unrolled, unrolled_hollow, cost_hollow, cost_append,
    ← Bounds.unroll_eq_inFull, Bounds.cost_unroll, Bounds.unrolledCost]

end hollowTwice

theorem forall_mem_hollowTwice {n : Nat} {q o : Quantifier} {P : Token → Prop} (opening : P .groupOpen)
    (closing : P .groupClose) (inner : P (.quantifier q.text)) (outer : P (.quantifier o.text)) :
    ∀ t ∈ (hollowTwice n q o).tokens, P t := by
  have parentheses : ∀ t ∈ (hollow n).tokens, P t := by
    intro t member
    obtain rfl | rfl := parenthesis_of_hollow n t member
    · exact opening
    · exact closing
  rw [tokens_hollowTwice, List.forall_mem_append, List.forall_mem_cons]
  refine ⟨⟨opening, parentheses⟩, ?_⟩
  simp only [List.forall_mem_cons]
  exact ⟨inner, closing, outer, List.forall_mem_nil _⟩

theorem expand_hollowTwice (n : Nat) {q o : Quantifier} (kept : q.bounds.most ≠ some 0)
    (kept' : o.bounds.most ≠ some 0) :
    expand (some (o.bounds.unrolledCost q.bounds.extra + 1)) ((hollowTwice n q o).tokens ++ [.finish]) =
      .ok ((hollowTwice n q o).unrolled ++ [.finish]) := by
  have nothing : ¬Token.groupOpen.Erases ∧ ¬Token.groupClose.Erases ∧ ¬Token.finish.Erases := by
    refine ⟨?_, ?_, ?_⟩ <;> exact fun ⟨_, _, same, _⟩ => nomatch same
  have erasesNot : ∀ t ∈ (hollowTwice n q o).tokens ++ [.finish], ¬t.Erases :=
    List.forall_mem_append.2 ⟨forall_mem_hollowTwice nothing.1 nothing.2.1 (q.not_erases kept)
      (o.not_erases kept'), List.forall_mem_singleton.2 nothing.2.2⟩
  have plain : Plain [.finish] := List.forall_mem_singleton.2 rfl
  have full := (hollowTwice n q o).expand_tokens plain
  obtain same | ⟨-, exceeding⟩ := expand_limited full (o.bounds.unrolledCost q.bounds.extra + 1)
  · exact same
  · have more := exceeding erasesNot
    rw [cost_append, cost_hollowTwice] at more
    exact absurd more (Nat.lt_irrefl _)

end PatternTree

namespace Expansion

open PatternTree

/-- The copies in a group, and the copies of the group, are too many if their number is greater than what
the nodes of both allow. -/
theorem exists_of_hollowTwice (n : Nat) {q o : Quantifier} (written : (Token.quantifier q.text).Lexical)
    (written' : (Token.quantifier o.text).Lexical) (kept : q.bounds.most ≠ some 0)
    (kept' : o.bounds.most ≠ some 0) (same : q.bounds.extra = 0 → o.bounds = q.bounds)
    (countable : o.bounds.unrolledCost q.bounds.extra + 1 < Counter.greatest)
    (beyond : (2 * n + 8) * (o.bounds.unrolledCost q.bounds.extra + 2) <
      o.bounds.unrolledCost (q.bounds.unrolledCost (2 * n + 2) + 2) + 1) :
    ∃ pattern ts us limit, Token.ofPattern pattern = .ok ts ∧ limit + cost ts < Counter.greatest ∧
      (∀ b ∈ start.freeBounds ts, b = q.bounds) ∧ expand (some limit) ts = .ok us ∧
      (ts.length + 1) * (limit + 1) < us.length := by
  have lexical : ∀ t ∈ (hollowTwice n q o).tokens, t.Lexical :=
    forall_mem_hollowTwice trivial trivial written written'
  have scanned : Token.ofPattern (Token.render (hollowTwice n q o).tokens) =
      .ok ((hollowTwice n q o).tokens ++ [.finish]) :=
    Token.ofPattern_eq_ok_iff.2 ⟨_, rfl, Token.spells_render lexical⟩
  refine ⟨_, _, _, _, scanned, ?_, ?_, expand_hollowTwice n kept kept', ?_⟩
  · have nothing : cost ((hollowTwice n q o).tokens ++ [.finish]) = 0 := by
      rw [tokens_hollowTwice, cost_append, cost_append, cost_cons, cost_hollow]
      rfl
    rw [nothing]
    exact countable
  · obtain ⟨e, steps, -⟩ := (hollowTwice n q o).steps_unrolled .start
    have last : e.freeBounds [.finish] = [] := freeBounds_of_plain (List.forall_mem_singleton.2 rfl) e
    rw [freeBounds_append steps, freeBounds_tokens, freeBounds_hollowTwice, last, List.append_nil,
      List.forall_mem_cons]
    refine ⟨rfl, ?_⟩
    split
    case isTrue all => exact List.forall_mem_singleton.2 (same all)
    case isFalse => exact List.forall_mem_nil _
  · simpa [tokens_hollowTwice, length_hollow, length_hollowTwice] using beyond

theorem exists_beyond {b : Bounds} (fits : b.Fits) (other : ¬b.Indifferent) (countable : b.Countable) :
    ∃ pattern ts us limit, Token.ofPattern pattern = .ok ts ∧ limit + cost ts < Counter.greatest ∧
      (∀ b' ∈ start.freeBounds ts, b' = b) ∧ expand (some limit) ts = .ok us ∧
      (ts.length + 1) * (limit + 1) < us.length := by
  obtain ⟨positive, kept, several⟩ := Bounds.exists_of_not_indifferent other
  obtain ⟨q, rfl, written⟩ := fits.exists_quantifier
  obtain all | tail := Nat.eq_zero_or_pos q.bounds.extra
  · -- copies of copies, none of which have nodes
    refine exists_of_hollowTwice 1 written written kept kept (fun _ => rfl)
      (by simp [Bounds.unrolledCost, all, Counter.greatest]) ?_
    have copies : (4 * 2 + 2) * 2 ≤ (4 * q.bounds.least + 2) * q.bounds.least :=
      Nat.mul_le_mul (Nat.add_le_add_right (Nat.mul_le_mul_left 4 (several all)) 2) (several all)
    simp only [Bounds.unrolledCost, all, Nat.add_zero, Nat.zero_mul, Nat.zero_add]
    exact Nat.lt_succ_of_le copies
  · -- only operators have nodes, and there is one copy more than operators
    obtain ⟨o, three, written'⟩ := Bounds.fits_thrice.exists_quantifier
    have kept' : o.bounds.most ≠ some 0 := by
      rw [three]
      exact fun zero => absurd (Option.some.inj zero) (by decide)
    refine exists_of_hollowTwice (8 * q.bounds.extra + 8) written written' kept kept'
      (fun all => absurd all (Nat.ne_of_gt tail)) ?_ ?_
    · rw [three, Bounds.unrolledCost_thrice, Nat.mul_comm]
      exact countable
    rw [three, Bounds.unrolledCost_thrice, Bounds.unrolledCost_thrice, Bounds.unrolledCost]
    generalize q.bounds.extra = x at *
    have more : 2 * (8 * x + 8) + 2 ≤ (2 * (8 * x + 8) + 2) * q.bounds.least :=
      Nat.le_mul_of_pos_right _ positive
    nlinarith

/-- Let only some bounds be used for copies of atoms without nodes. What is written out within a limit then
always has at most as many tokens as the limit and the length of the pattern allow together, exactly if
all of these bounds let nothing be there or ask for the atom once. The counter has to have room for the
limit and for the tokens read: the greatest number of 64 bits, as a limit, is never exceeded. -/
theorem length_expand_le_iff (free : Bounds → Prop)
    (countable : ∀ b, free b → b.Indifferent ∨ b.Countable) :
    (∀ pattern ts us limit, Token.ofPattern pattern = .ok ts → limit + cost ts < Counter.greatest →
      (∀ b ∈ start.freeBounds ts, free b) → expand (some limit) ts = .ok us →
      us.length ≤ (ts.length + 1) * (limit + 1)) ↔
    ∀ b, b.Fits → free b → b.Indifferent := by
  constructor
  · intro bounded b fits allowed
    by_contra other
    obtain ⟨pattern, ts, us, limit, scanned, spare, only, written, beyond⟩ :=
      exists_beyond fits other ((countable b allowed).resolve_left other)
    have within := bounded pattern ts us limit scanned spare (fun b' member => only b' member ▸ allowed)
      written
    exact Nat.not_lt.2 within beyond
  · intro indifferent pattern ts us limit scanned spare allowed written
    obtain ⟨vs, rfl, spells⟩ := Token.ofPattern_eq_ok_iff.1 scanned
    obtain ⟨e, steps, rfl⟩ := expand_finish written
    rw [cost_append] at spare
    -- the counter has room for all tokens, so the limit is checked against the true cost
    have counted : Counted limit vs start := counted_start (by omega)
    rw [freeBounds_append (steps_unlimited steps), List.forall_mem_append] at allowed
    have length : e.written.length ≤ (0 + vs.length) * max limit 1 :=
      length_of_steps (p := ⟨[], [], .empty⟩) counted (Token.finish_not_mem spells)
        (Token.numeric_of_spells spells) rfl rfl ⟨List.forall_mem_nil _, List.forall_mem_nil _, trivial⟩
        (fun b member fits => indifferent b fits (allowed.1 b member)) (Nat.zero_le _) steps
    simp only [List.length_append, List.length_reverse, List.length_singleton]
    calc e.written.length + 1
        ≤ (0 + vs.length) * max limit 1 + 1 := Nat.add_le_add_right length 1
      _ ≤ vs.length * (limit + 1) + (limit + 1) := by
        rw [Nat.zero_add]
        exact Nat.add_le_add (Nat.mul_le_mul_left _ (by omega)) (by omega)
      _ = (vs.length + 1) * (limit + 1) := (Nat.succ_mul _ _).symm
      _ ≤ (vs.length + 1 + 1) * (limit + 1) := Nat.mul_le_mul_right _ (Nat.le_succ _)

theorem length_expand_le_iff_of_groups : ∃ ts us,
    Token.ofPattern "(()a\x7b2\x7d)\x7b2,3\x7d()\x7b0,1\x7d" = .ok ts ∧
    (∀ b ∈ start.freeBounds ts, b.Indifferent) ∧ start.freeBounds ts ≠ [] ∧
    expand (some 20) ts = .ok us ∧ us.length ≤ (ts.length + 1) * (20 + 1) := by
  have runs : (Token.ofPattern "(()a\x7b2\x7d)\x7b2,3\x7d()\x7b0,1\x7d").toOption.map
      (fun ts => ((start.freeBounds ts).map (·.least), cost ts, (expand (some 20) ts).isOk)) =
        some ([0], 1, true) := by
    decide +kernel
  obtain ⟨ts, scanned, both⟩ := Option.map_eq_some_iff.1 runs
  obtain ⟨least, rest⟩ := Prod.mk.inj both
  obtain ⟨nodes, written⟩ := Prod.mk.inj rest
  obtain ⟨us, written⟩ := exists_of_isOk written
  have scanned' := ok_of_toOption scanned
  have allowed : ∀ b ∈ start.freeBounds ts, b.Indifferent := by
    intro b member
    have zero : b.least ∈ (start.freeBounds ts).map (·.least) := List.mem_map_of_mem member
    rw [least, List.mem_singleton] at zero
    exact .inl zero
  refine ⟨ts, us, scanned', allowed, ?_, written,
    (length_expand_le_iff Bounds.Indifferent fun _ => .inl).2 (fun _ _ same => same) _ ts us 20 scanned'
      (nodes ▸ by decide) allowed written⟩
  intro none
  rw [none] at least
  cases least

/-- A hundred copies of an empty group are written within a limit of ten nodes. -/
theorem length_expand_of_nothing : ∃ ts us, Token.ofPattern "()\x7b100,100\x7d" = .ok ts ∧
    expand (some 10) ts = .ok us ∧ (ts.length + 1) * (10 + 1) < us.length := by
  have runs : (Token.ofPattern "()\x7b100,100\x7d").toOption.bind (fun ts =>
      (expand (some 10) ts).toOption.map fun us => (ts.length, us.length)) = some (4, 201) := by
    decide +kernel
  obtain ⟨ts, scanned, run⟩ := Option.bind_eq_some_iff.1 runs
  obtain ⟨us, written, lengths⟩ := Option.map_eq_some_iff.1 run
  obtain ⟨read, many⟩ := Prod.mk.inj lengths
  refine ⟨ts, us, ok_of_toOption scanned, ok_of_toOption written, ?_⟩
  rw [read, many]
  decide

end Expansion

end ByteRegex
