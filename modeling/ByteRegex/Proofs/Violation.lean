import ByteRegex.Proofs.Conversion
import ByteRegex.Proofs.Grammar
import Mathlib.Data.List.Induction

/-! What is wrong with tokens without quantifiers that derive no expression, said of the tokens alone. A
token violates the grammar after the tokens before it, or the tokens end too early, and the fault that
is reported is that of the leftmost violation. The levels of a reader stand for the tokens so far: they
tell whether a branch begins and how many groups are open. -/

namespace ByteRegex

namespace Token

def BeginsBranch (us : List Token) : Prop :=
  ∀ t, us.getLast? = some t → t = groupOpen ∨ t = alternation

def InGroup (us : List Token) : Prop :=
  us.count groupClose < us.count groupOpen

/-- Whether a token cannot stand after others, and what is wrong with it there. -/
inductive Violates (us : List Token) : Token → Fault → Prop
  | operator (op : Repetition) (begins : BeginsBranch us) :
      Violates us (repetition op) .danglingOperator
  | emptyBranch (begins : BeginsBranch us) : Violates us alternation .emptyAlternation
  | unopened (outside : ¬InGroup us) : Violates us groupClose .unbalancedGroup
  | emptyGroup (inside : InGroup us) (last : us.getLast? = some groupOpen) :
      Violates us groupClose .emptyGroup
  | emptyLastBranch (inside : InGroup us) (last : us.getLast? = some alternation) :
      Violates us groupClose .emptyAlternation

/-- What is wrong with tokens that end too early. -/
inductive Unfinished (us : List Token) : Fault → Prop
  | unclosed (inside : InGroup us) : Unfinished us .unbalancedGroup
  | emptyLastBranch (outside : ¬InGroup us) (last : us.getLast? = some alternation) :
      Unfinished us .emptyAlternation
  | empty (none : us = []) : Unfinished us .emptyPattern

def Unviolated (ts : List Token) : Prop :=
  ∀ us t rest, ts = us ++ t :: rest → ∀ fault, ¬Violates us t fault

/-- The fault of the first token that cannot stand where it does, or else of the end. -/
def LeftmostViolation (ts : List Token) (fault : Fault) : Prop :=
  (∃ us t rest, ts = us ++ t :: rest ∧ Unviolated us ∧ Violates us t fault) ∨
    Unviolated ts ∧ Unfinished ts fault

variable {us ts : List Token} {t : Token} {fault : Fault}

theorem beginsBranch_append : BeginsBranch (us ++ [t]) ↔ t = groupOpen ∨ t = alternation := by
  simp [BeginsBranch]

theorem unviolated_nil : Unviolated [] := by
  intro us t rest parts
  cases us <;> cases parts

theorem unviolated_append_singleton :
    Unviolated (us ++ [t]) ↔ Unviolated us ∧ ∀ fault, ¬Violates us t fault := by
  constructor
  · intro h
    refine ⟨?_, h us t [] rfl⟩
    rintro vs v rest rfl
    exact h vs v (rest ++ [t]) (by simp)
  · rintro ⟨before, last⟩ vs v rest parts
    obtain rfl | ⟨rest', x, rfl⟩ := List.eq_nil_or_concat rest
    · obtain ⟨rfl, same⟩ := List.append_inj' parts rfl
      cases same
      exact last
    · rw [List.concat_eq_append, ← List.cons_append, ← List.append_assoc] at parts
      exact before vs v rest' (List.append_inj' parts rfl).1

theorem unviolated_or_exists (ts : List Token) : Unviolated ts ∨
    ∃ us t rest fault, ts = us ++ t :: rest ∧ Unviolated us ∧ Violates us t fault := by
  induction ts using List.reverseRecOn with
  | nil => exact .inl unviolated_nil
  | append_singleton ts t ih =>
    obtain before | ⟨us, v, rest, fault, rfl, first⟩ := ih
    · by_cases last : ∃ fault, Violates ts t fault
      · obtain ⟨fault, violates⟩ := last
        exact .inr ⟨ts, t, [], fault, rfl, before, violates⟩
      · exact .inl (unviolated_append_singleton.2 ⟨before, not_exists.1 last⟩)
    · exact .inr ⟨us, v, rest ++ [t], fault, by simp, first⟩

end Token

open Token

theorem Branch.exists_expr {b : Branch} (h : b ≠ .empty) : ∃ e, b.expr? = some e := by
  cases b with
  | empty => exact absurd rfl h
  | single last => exact ⟨_, rfl⟩
  | joined before last => exact ⟨_, rfl⟩

theorem Branch.exists_repeatLast {b : Branch} (h : b ≠ .empty) (op : Repetition) :
    ∃ b', b' ≠ .empty ∧ b.repeatLast? op = some b' := by
  cases b with
  | empty => exact absurd rfl h
  | single last => exact ⟨_, by simp, rfl⟩
  | joined before last => exact ⟨_, by simp, rfl⟩

theorem Branch.push_ne_empty (b : Branch) (e : Expr) : b.push e ≠ .empty := by
  cases b <;> simp [push]

/-- The state of a reader after some tokens. -/
structure Stands (us : List Token) (enclosing : List Level) (l : Level) : Prop where
  derived : Level.DerivedIn enclosing l us
  begins_iff : l.branch = .empty ↔ BeginsBranch us
  first_iff : l.branch = .empty → (l.branches = [] ↔ us.getLast? ≠ some .alternation)
  depth : us.count .groupOpen = us.count .groupClose + enclosing.length

namespace Stands

variable {us : List Token} {t : Token} {enclosing : List Level} {l l' : Level} {fault : Fault}

theorem start : Stands [] [] .start :=
  ⟨Level.derived_start, by simp [Level.start, BeginsBranch], by simp [Level.start], rfl⟩

theorem inGroup_iff (h : Stands us enclosing l) : InGroup us ↔ enclosing ≠ [] := by
  have depth := h.depth
  rw [InGroup, ← List.length_pos_iff]
  omega

theorem exists_outer (h : Stands us enclosing l) (inside : InGroup us) :
    ∃ outer enclosing', enclosing = outer :: enclosing' :=
  List.exists_cons_of_ne_nil (h.inGroup_iff.1 inside)

theorem enclosing_eq_nil (h : Stands us enclosing l) (outside : ¬InGroup us) : enclosing = [] := by
  cases enclosing with
  | nil => rfl
  | cons outer enclosing => exact absurd (h.inGroup_iff.2 (by simp)) outside

theorem of_nonempty (derived : Level.DerivedIn enclosing l (us ++ [t])) (nonempty : l.branch ≠ .empty)
    (other : ¬(t = .groupOpen ∨ t = .alternation))
    (depth : (us ++ [t]).count .groupOpen = (us ++ [t]).count .groupClose + enclosing.length) :
    Stands (us ++ [t]) enclosing l where
  derived := derived
  begins_iff := ⟨fun empty => absurd empty nonempty,
    fun begins => absurd (beginsBranch_append.1 begins) other⟩
  first_iff := fun empty => absurd empty nonempty
  depth := depth

theorem close_eq_error (h : Stands us enclosing l) {ifEmpty : Fault} (begins : BeginsBranch us) :
    l.close ifEmpty =
      .error (if us.getLast? = some .alternation then .emptyAlternation else ifEmpty) := by
  obtain ⟨branches, branch⟩ := l
  obtain rfl : branch = .empty := h.begins_iff.2 begins
  have first : branches = [] ↔ us.getLast? ≠ some .alternation := h.first_iff rfl
  cases branches with
  | nil =>
    rw [if_neg (first.1 rfl)]
    rfl
  | cons e branches =>
    rw [if_pos (Classical.byContradiction fun other => by cases first.2 other)]
    rfl

theorem read_of_violates (h : Stands us enclosing l) (violates : Violates us t fault)
    (rest : List Token) : Expr.read enclosing l (t :: rest) = .error fault := by
  cases violates with
  | operator op begins =>
    have empty := h.begins_iff.2 begins
    rw [Expr.read, Level.repeatLast?, empty]
    rfl
  | emptyBranch begins =>
    have empty := h.begins_iff.2 begins
    rw [Expr.read, Level.nextBranch?, empty]
    rfl
  | unopened outside =>
    rw [h.enclosing_eq_nil outside]
    rfl
  | emptyGroup inside last =>
    obtain ⟨outer, enclosing, rfl⟩ := h.exists_outer inside
    have closed : l.close .emptyGroup = _ := h.close_eq_error (by simp [BeginsBranch, last])
    rw [last, if_neg (by simp)] at closed
    simp only [Expr.read, closed]
  | emptyLastBranch inside last =>
    obtain ⟨outer, enclosing, rfl⟩ := h.exists_outer inside
    have closed : l.close .emptyGroup = _ := h.close_eq_error (by simp [BeginsBranch, last])
    rw [last, if_pos rfl] at closed
    simp only [Expr.read, closed]

theorem close_eq_ok (h : Stands us enclosing l) (goesOn : ¬BeginsBranch us) :
    ∃ e, ∀ ifEmpty, l.close ifEmpty = .ok e := by
  obtain ⟨e, read⟩ := Branch.exists_expr (mt h.begins_iff.1 goesOn)
  refine ⟨l.branches.foldl (fun right left => .alternate left right) e, fun ifEmpty => ?_⟩
  simp only [Level.close, read]

theorem step (h : Stands us enclosing l) (plain : t.isQuantifier = false) (inner : t ≠ .finish)
    (allowed : ∀ fault, ¬Violates us t fault) : ∃ enclosing' l', Stands (us ++ [t]) enclosing' l' ∧
      ∀ rest, Expr.read enclosing l (t :: rest) = Expr.read enclosing' l' rest := by
  cases t with
  | quantifier text => cases plain
  | finish => exact absurd rfl inner
  | operand item =>
    have item' := h.derived.append fun ws read => read.push (.once (.operand item))
    refine ⟨_, _, of_nonempty item' (Branch.push_ne_empty _ _) (by simp) ?_, fun rest => rfl⟩
    simpa using h.depth
  | repetition op =>
    have nonempty := mt h.begins_iff.1 fun begins => allowed _ (.operator op begins)
    obtain ⟨b, remains, repeated⟩ := Branch.exists_repeatLast nonempty op
    have found : l.repeatLast? op = some { l with branch := b } := by
      rw [Level.repeatLast?, repeated]
      rfl
    have repeated' := h.derived.append fun ws read => read.repeatLast found
    refine ⟨_, _, of_nonempty repeated' remains (by simp) ?_, fun rest => ?_⟩
    · simpa using h.depth
    · rw [Expr.read, found]
  | groupOpen =>
    refine ⟨l :: enclosing, .start, ⟨h.derived.opens, ?_, ?_, ?_⟩, fun rest => rfl⟩
    · simp [Level.start, beginsBranch_append]
    · simp [Level.start]
    · simp [h.depth, Nat.add_assoc]
  | groupClose =>
    have inside : InGroup us := Classical.byContradiction fun outside => allowed _ (.unopened outside)
    obtain ⟨outer, enclosing, rfl⟩ := h.exists_outer inside
    -- an empty branch before the parenthesis would be a violation, of a group or of an alternation
    have goesOn : ¬BeginsBranch us := by
      intro begins
      cases last : us.getLast? with
      | none =>
        rw [List.getLast?_eq_none_iff.1 last] at inside
        cases inside
      | some t =>
        obtain rfl | rfl := begins t last
        · exact allowed _ (.emptyGroup inside last)
        · exact allowed _ (.emptyLastBranch inside last)
    obtain ⟨e, closes⟩ := h.close_eq_ok goesOn
    have closed := h.derived.close (closes .emptyGroup)
    refine ⟨_, _, of_nonempty closed (Branch.push_ne_empty _ _) (by simp) ?_, fun rest => ?_⟩
    · have depth := h.depth
      simp only [List.length_cons] at depth
      simp [depth]
      omega
    · simp only [Expr.read, closes]
  | alternation =>
    have nonempty := mt h.begins_iff.1 fun begins => allowed _ (.emptyBranch begins)
    obtain ⟨e, read⟩ := Branch.exists_expr nonempty
    have found : l.nextBranch? = some ⟨e :: l.branches, .empty⟩ := by
      rw [Level.nextBranch?, read]
      rfl
    have next := h.derived.append fun ws derived => derived.nextBranch found
    refine ⟨enclosing, _, ⟨next, ?_, ?_, ?_⟩, fun rest => by rw [Expr.read, found]⟩
    · simp [beginsBranch_append]
    · simp
    · simpa using h.depth

theorem atEnd_of_unfinished (h : Stands us enclosing l) (unfinished : Unfinished us fault) :
    Expr.atEnd enclosing l = .error fault := by
  unfold Expr.atEnd
  cases unfinished with
  | unclosed inside =>
    obtain ⟨outer, enclosing, rfl⟩ := h.exists_outer inside
    rfl
  | emptyLastBranch outside last =>
    have closed : l.close .emptyPattern = _ := h.close_eq_error (by simp [BeginsBranch, last])
    rw [last, if_pos rfl] at closed
    rw [h.enclosing_eq_nil outside]
    exact closed
  | empty none =>
    cases none
    rw [h.enclosing_eq_nil (by simp [InGroup])]
    exact h.close_eq_error (by simp [BeginsBranch])

theorem exists_atEnd (h : Stands us enclosing l) (finished : ∀ fault, ¬Unfinished us fault) :
    ∃ e, Expr.atEnd enclosing l = .ok e ∧ Derives .pattern us e := by
  have outside : ¬InGroup us := fun inside => finished _ (.unclosed inside)
  obtain rfl := h.enclosing_eq_nil outside
  have goesOn : ¬BeginsBranch us := by
    intro begins
    have empty := h.begins_iff.2 begins
    by_cases last : us.getLast? = some .alternation
    · exact finished _ (.emptyLastBranch outside last)
    · obtain ⟨us₁, us₂, rfl, ended, current⟩ := h.derived
      rw [(h.first_iff empty).2 last] at ended
      rw [empty] at current
      cases ended
      cases current
      exact finished _ (.empty rfl)
  obtain ⟨e, closes⟩ := h.close_eq_ok goesOn
  have whole : l.Derived us := h.derived
  exact ⟨e, closes .emptyPattern, whole.close (closes .emptyPattern)⟩

theorem of_unviolated {us : List Token} (plain : ∀ t ∈ us, t.isQuantifier = false)
    (noFinish : .finish ∉ us) (h : Unviolated us) : ∃ enclosing l, Stands us enclosing l ∧
      ∀ rest, Expr.read [] .start (us ++ rest) = Expr.read enclosing l rest := by
  induction us using List.reverseRecOn with
  | nil => exact ⟨[], .start, start, fun rest => rfl⟩
  | append_singleton us t ih =>
    simp only [List.mem_append, List.mem_singleton, not_or] at plain noFinish
    obtain ⟨before, allowed⟩ := unviolated_append_singleton.1 h
    obtain ⟨enclosing, l, stands, through⟩ :=
      ih (fun v member => plain v (.inl member)) noFinish.1 before
    obtain ⟨enclosing', l', stands', read⟩ :=
      stands.step (plain t (.inr rfl)) (Ne.symm noFinish.2) allowed
    refine ⟨enclosing', l', stands', fun rest => ?_⟩
    rw [List.append_assoc, through, List.singleton_append, read]

end Stands

namespace Expr

theorem read_takeWhile (enclosing : List Level) (l : Level) (ts : List Token) :
    read enclosing l (ts.takeWhile (· ≠ .finish)) = read enclosing l ts := by
  induction ts generalizing enclosing l with
  | nil => rfl
  | cons t ts ih =>
    cases t with
    | finish => rfl
    | operand item => exact ih _ _
    | groupOpen => exact ih _ _
    | quantifier text => rfl
    | repetition op =>
      rw [List.takeWhile_cons_of_pos (by simp), read, read]
      split
      · rfl
      · exact ih _ _
    | alternation =>
      rw [List.takeWhile_cons_of_pos (by simp), read, read]
      split
      · rfl
      · exact ih _ _
    | groupClose =>
      rw [List.takeWhile_cons_of_pos (by simp)]
      cases enclosing with
      | nil => rfl
      | cons outer enclosing =>
        simp only [read]
        split
        · rfl
        · exact ih _ _

variable {ts : List Token}

theorem ofTokens_of_violation (plain : ∀ t ∈ ts, t.isQuantifier = false) (noFinish : .finish ∉ ts)
    {fault : Fault} (h : LeftmostViolation ts fault) : ofTokens ts = .error fault := by
  obtain ⟨us, t, rest, rfl, before, violates⟩ | ⟨unviolated, unfinished⟩ := h
  · simp only [List.mem_append, not_or] at plain noFinish
    obtain ⟨enclosing, l, stands, through⟩ :=
      Stands.of_unviolated (fun v member => plain v (.inl member)) noFinish.1 before
    rw [ofTokens, through, stands.read_of_violates violates]
  · obtain ⟨enclosing, l, stands, through⟩ := Stands.of_unviolated plain noFinish unviolated
    have ends := through []
    rw [List.append_nil] at ends
    rw [ofTokens, ends]
    exact stands.atEnd_of_unfinished unfinished

/-- Tokens derive an expression or violate the grammar. -/
theorem exists_derives_or_violation (plain : ∀ t ∈ ts, t.isQuantifier = false)
    (noFinish : .finish ∉ ts) : (∃ e, ofTokens ts = .ok e ∧ Derives .pattern ts e) ∨
      ∃ fault, LeftmostViolation ts fault := by
  obtain unviolated | ⟨us, t, rest, fault, parts, before, violates⟩ := unviolated_or_exists ts
  · by_cases unfinished : ∃ fault, Unfinished ts fault
    · obtain ⟨fault, unfinished⟩ := unfinished
      exact .inr ⟨fault, .inr ⟨unviolated, unfinished⟩⟩
    · obtain ⟨enclosing, l, stands, through⟩ := Stands.of_unviolated plain noFinish unviolated
      obtain ⟨e, ends, derives⟩ := stands.exists_atEnd (not_exists.1 unfinished)
      have reads := through []
      rw [List.append_nil] at reads
      exact .inl ⟨e, reads.trans ends, derives⟩
  · exact .inr ⟨fault, .inl ⟨us, t, rest, parts, before, violates⟩⟩

theorem ofTokens_of_derives {e : Expr} (h : Derives .pattern ts e) : ofTokens ts = .ok e := by
  obtain ⟨l, closes, through⟩ := h.reads [] (l := .start) rfl
  have reads := through []
  rw [List.append_nil] at reads
  exact reads.trans (closes .emptyPattern)

theorem ofTokens_takeWhile (ts : List Token) :
    ofTokens (ts.takeWhile (· ≠ .finish)) = ofTokens ts :=
  read_takeWhile [] .start ts

end Expr

namespace Symbol

open ByteRegex.Expr

variable {ts : List Token}

/-- Converting tokens up to the first end, where no quantifier is among them. What comes out lists the
expression that the tokens derive, with its operators after their operands, and the fault is that of the
leftmost violation. -/
theorem ofTokens_iff_grammar (ts : List Token)
    (plain : ∀ t ∈ ts.takeWhile (· ≠ .finish), t.isQuantifier = false) :
    (∀ symbols, ofTokens ts = .ok symbols ↔
      ∃ e, Derives .pattern (ts.takeWhile (· ≠ .finish)) e ∧ symbols = e.symbols) ∧
    ∀ fault, ofTokens ts = .error fault ↔
      LeftmostViolation (ts.takeWhile (· ≠ .finish)) fault := by
  have noFinish : .finish ∉ ts.takeWhile (· ≠ .finish) := fun member => by
    simpa using List.all_eq_true.1 List.all_takeWhile _ member
  have outcome := exists_derives_or_violation plain noFinish
  rw [ofTokens_eq, ← ofTokens_takeWhile]
  refine ⟨fun symbols => ⟨fun listed => ?_, ?_⟩, fun fault => ⟨fun refused => ?_, fun violation => ?_⟩⟩
  · obtain ⟨e, read, rfl⟩ := ok_of_map listed
    obtain ⟨e', read', derives⟩ | ⟨fault, violation⟩ := outcome
    · cases read.symm.trans read'
      exact ⟨e, derives, rfl⟩
    · cases read.symm.trans (ofTokens_of_violation plain noFinish violation)
  · rintro ⟨e, derives, rfl⟩
    rw [ofTokens_of_derives derives]
    rfl
  · obtain ⟨e, read, -⟩ | ⟨fault', violation⟩ := outcome
    · rw [read] at refused
      cases refused
    · rw [ofTokens_of_violation plain noFinish violation] at refused
      cases refused
      exact violation
  · rw [ofTokens_of_violation plain noFinish violation]
    rfl

theorem ofTokens_iff_grammar_of_group :
    (∃ e, Derives .pattern [.operand .wildcard, .groupOpen, .operand (.literal 'b'), .alternation,
        .operand (.literal 'c'), .groupClose, .repetition .star] e ∧
      [.operand .wildcard, .operand (.literal 'b'), .operand (.literal 'c'), .alternate,
        .repetition .star, .concat] = e.symbols) ∧
    LeftmostViolation [.operand .wildcard, .groupOpen, .alternation, .groupClose, .repetition .star]
      .emptyAlternation := by
  have accepted := ofTokens_iff_grammar [.operand .wildcard, .groupOpen, .operand (.literal 'b'),
    .alternation, .operand (.literal 'c'), .groupClose, .repetition .star, .finish,
    .quantifier "\x7b2\x7d"] (by decide)
  have refused := ofTokens_iff_grammar [.operand .wildcard, .groupOpen, .alternation, .groupClose,
    .repetition .star] (by decide)
  exact ⟨(accepted.1 _).1 rfl, (refused.2 _).1 rfl⟩

end Symbol

end ByteRegex
