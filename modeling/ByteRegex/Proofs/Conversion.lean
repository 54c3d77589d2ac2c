import ByteRegex.Automaton.Construction
import ByteRegex.Pattern.Reading

/-! A conversion lists the tree that is read off the same tokens. While both are under way, the symbols
are those of the branches of every level, and the numbers are those of branches and of items that are not
joined yet. -/

namespace ByteRegex

namespace Branch

def symbols : Branch → List Symbol
  | empty => []
  | single last => last.symbols
  | joined before last => before.symbols ++ last.symbols

def waiting : Branch → Nat
  | empty => 0
  | single _ => 1
  | joined _ _ => 2

def join : Branch → Branch
  | joined before last => single (.concat before last)
  | b => b

theorem symbols_push (b : Branch) (e : Expr) : (b.push e).symbols = b.join.symbols ++ e.symbols := by
  cases b with
  | empty => rfl
  | single last => rfl
  | joined before last => rfl

theorem waiting_push (b : Branch) (e : Expr) : (b.push e).waiting = b.join.waiting + 1 := by
  cases b with
  | empty => rfl
  | single last => rfl
  | joined before last => rfl

theorem expr?_of_waiting {b : Branch} (some : b.waiting ≠ 0) : ∃ e, b.expr? = Option.some e ∧
    e.symbols = b.symbols ++ List.replicate (b.waiting - 1) .concat := by
  cases b with
  | empty => exact absurd rfl some
  | single last => exact ⟨last, rfl, (List.append_nil _).symm⟩
  | joined before last => exact ⟨.concat before last, rfl, Expr.symbols_concat before last⟩

theorem eq_empty_of_waiting {b : Branch} (none : b.waiting = 0) : b = empty := by
  cases b with
  | empty => rfl
  | single last => cases none
  | joined before last => cases none

end Branch

namespace Level

def listed (l : Level) : List Symbol :=
  l.branches.reverse.flatMap Expr.symbols

def join (l : Level) : Level :=
  { l with branch := l.branch.join }

def symbols (l : Level) : List Symbol :=
  l.listed ++ l.branch.symbols

theorem symbols_alternate (branches : List Expr) (e : Expr) :
    (branches.foldl (fun right left => .alternate left right) e).symbols =
      branches.reverse.flatMap Expr.symbols ++ e.symbols ++
        List.replicate branches.length .alternate := by
  induction branches generalizing e with
  | nil => simp
  | cons left branches ih =>
    rw [List.foldl_cons, ih, Expr.symbols_alternate, List.length_cons, List.replicate_succ]
    simp

end Level

namespace Conversion

/-- A conversion is as far as a reading. The enclosing levels have their items joined. -/
structure Tracks (c : Conversion) (enclosing : List Level) (l : Level) : Prop where
  symbols_eq : c.symbols.reverse = enclosing.reverse.flatMap (·.join.symbols) ++ l.symbols
  waiting_eq : c.waiting = l.branch.waiting
  bars_eq : c.bars = l.branches.length
  enclosing_eq : c.enclosing = enclosing.map fun l => (l.branches.length, l.branch.join.waiting)

variable {c : Conversion} {enclosing : List Level} {l : Level}

theorem tracks_start : start.Tracks [] .start :=
  ⟨rfl, rfl, rfl, rfl⟩

theorem reverse_flush (waiting bars : Nat) (symbols : List Symbol) :
    (flush waiting bars symbols).reverse =
      symbols.reverse ++ List.replicate (waiting - 1) .concat ++ List.replicate bars .alternate := by
  simp [flush]

theorem Tracks.join (h : c.Tracks enclosing l) : c.join.Tracks enclosing l.join := by
  obtain ⟨symbols, waiting, bars, saved⟩ := h
  obtain ⟨branches, b⟩ := l
  unfold Conversion.join
  cases b with
  | empty | single last =>
    rw [if_neg (by simp [waiting, Branch.waiting])]
    exact ⟨symbols, waiting, bars, saved⟩
  | joined before last =>
    rw [if_pos (by simp [waiting, Branch.waiting])]
    refine ⟨?_, by simp [waiting, Branch.waiting, Level.join, Branch.join], bars, saved⟩
    simp [symbols, Level.symbols, Level.listed, Level.join, Branch.join, Branch.symbols]

theorem Tracks.push (h : c.Tracks enclosing l) (item : Operand) :
    (c.push item).Tracks enclosing (l.push (.operand item)) := by
  obtain ⟨symbols, waiting, bars, saved⟩ := h.join
  refine ⟨?_, ?_, bars, saved⟩
  · simp only [Conversion.push, List.reverse_cons, symbols, Level.symbols, Level.push,
      Branch.symbols_push, Expr.symbols_operand, List.append_assoc]
    rfl
  · simp only [Conversion.push, waiting, Level.push, Branch.waiting_push]
    rfl

theorem Tracks.openGroup (h : c.Tracks enclosing l) : c.openGroup.Tracks (l :: enclosing) .start := by
  obtain ⟨symbols, waiting, bars, saved⟩ := h.join
  refine ⟨?_, rfl, rfl, ?_⟩
  · simp [Conversion.openGroup, symbols, Level.symbols, Level.listed, Level.start, Branch.symbols]
  · simp only [Conversion.openGroup, saved, waiting, bars, List.map_cons]
    rfl

theorem Tracks.repeatLast (h : c.Tracks enclosing l) (op : Repetition) :
    (c.repeatLast? op = none ∧ l.repeatLast? op = none) ∨
      ∃ c' l', c.repeatLast? op = some c' ∧ l.repeatLast? op = some l' ∧ c'.Tracks enclosing l' := by
  obtain ⟨symbols, waiting, bars, saved⟩ := h
  obtain ⟨branches, b⟩ := l
  unfold repeatLast?
  cases b with
  | empty => exact .inl ⟨if_pos waiting, rfl⟩
  | single last | joined before last =>
    refine .inr ⟨_, _, if_neg (by simp [waiting, Branch.waiting]), rfl, ?_, waiting, bars, saved⟩
    simp [symbols, Level.symbols, Level.listed, Branch.symbols]

theorem Tracks.nextBranch (h : c.Tracks enclosing l) :
    (c.nextBranch? = none ∧ l.nextBranch? = none) ∨
      ∃ c' l', c.nextBranch? = some c' ∧ l.nextBranch? = some l' ∧ c'.Tracks enclosing l' := by
  obtain ⟨symbols, waiting, bars, saved⟩ := h
  unfold Conversion.nextBranch?
  by_cases none : l.branch.waiting = 0
  · refine .inl ⟨if_pos (waiting.trans none), ?_⟩
    rw [Level.nextBranch?, Branch.eq_empty_of_waiting none]
    rfl
  · obtain ⟨e, found, listed⟩ := Branch.expr?_of_waiting none
    have ended : l.nextBranch? = some ⟨e :: l.branches, .empty⟩ := by
      rw [Level.nextBranch?, found]
      rfl
    refine .inr ⟨_, ⟨e :: l.branches, .empty⟩, if_neg (waiting ▸ none), ended, ?_, rfl, ?_, saved⟩
    · simp [reverse_flush, symbols, Level.symbols, Level.listed, Branch.symbols, listed, waiting]
    · simp [bars]

/-- A level that ends has the same fault in both, or the symbols of its expression follow those of the
enclosing levels. -/
theorem Tracks.close (h : c.Tracks enclosing l) (ifEmpty : Fault) :
    (c.close ifEmpty).map List.reverse = (l.close ifEmpty).map fun e =>
      enclosing.reverse.flatMap (·.join.symbols) ++ e.symbols := by
  obtain ⟨symbols, waiting, bars, -⟩ := h
  unfold Conversion.close Level.close
  by_cases none : l.branch.waiting = 0
  · rw [if_pos (waiting.trans none), Branch.eq_empty_of_waiting none]
    cases branches : l.branches <;> simp [bars, branches, Branch.expr?, Except.map]
  · obtain ⟨e, found, listed⟩ := Branch.expr?_of_waiting none
    rw [if_neg (waiting ▸ none), found]
    simp [Except.map, reverse_flush, symbols, Level.symbols, Level.listed, Level.symbols_alternate, listed,
      waiting, bars]

theorem Tracks.closeGroup {outer : Level} (h : c.Tracks (outer :: enclosing) l) :
    (∃ fault, c.closeGroup = .error fault ∧ l.close .emptyGroup = .error fault) ∨
      ∃ c' e, c.closeGroup = .ok c' ∧ l.close .emptyGroup = .ok e ∧ c'.Tracks enclosing (outer.push e) := by
  have closed := h.close .emptyGroup
  unfold Conversion.closeGroup
  rw [h.enclosing_eq, List.map_cons]
  cases symbols : c.close .emptyGroup with
  | error fault =>
    cases result : l.close .emptyGroup with
    | error fault' =>
      rw [symbols, result] at closed
      cases closed
      exact .inl ⟨fault, rfl, rfl⟩
    | ok e =>
      rw [symbols, result] at closed
      cases closed
  | ok symbols' =>
    cases result : l.close .emptyGroup with
    | error fault =>
      rw [symbols, result] at closed
      cases closed
    | ok e =>
      rw [symbols, result] at closed
      refine .inr ⟨_, e, rfl, rfl, ?_, ?_, rfl, rfl⟩
      · rw [Except.ok.inj closed]
        simp [Level.symbols, Level.listed, Level.push, Level.join, Branch.symbols_push]
      · exact (Branch.waiting_push outer.branch e).symm

theorem Tracks.atEnd (h : c.Tracks enclosing l) :
    c.atEnd = (Expr.atEnd enclosing l).map Expr.symbols := by
  unfold Conversion.atEnd Expr.atEnd
  rw [h.enclosing_eq]
  cases enclosing with
  | nil => simpa using h.close .emptyPattern
  | cons outer enclosing => rfl

theorem Tracks.run_eq (h : c.Tracks enclosing l) (ts : List Token) :
    c.run ts = (Expr.read enclosing l ts).map Expr.symbols := by
  induction ts generalizing c enclosing l with
  | nil => exact h.atEnd
  | cons t rest ih =>
    cases t with
    | finish => exact h.atEnd
    | operand item => exact ih (h.push item)
    | groupOpen => exact ih h.openGroup
    | repetition op =>
      rw [run, Expr.read]
      obtain ⟨none, none'⟩ | ⟨c', l', some, some', tracks⟩ := h.repeatLast op
      · rw [none, none']
        rfl
      · rw [some, some']
        exact ih tracks
    | quantifier text =>
      -- both refuse a quantifier, with a fault that tells whether an operand waits for it
      rw [run, h.waiting_eq]
      cases branch : l.branch <;> simp [Expr.read, branch, Branch.waiting, Except.map]
    | groupClose =>
      rw [run]
      cases enclosing with
      | nil =>
        rw [Conversion.closeGroup, h.enclosing_eq]
        rfl
      | cons outer enclosing =>
        rw [Expr.read]
        obtain ⟨fault, refused, refused'⟩ | ⟨c', e, closed, closed', tracks⟩ := h.closeGroup
        · rw [refused, refused']
          rfl
        · rw [closed, closed']
          exact ih tracks
    | alternation =>
      rw [run, Expr.read]
      obtain ⟨none, none'⟩ | ⟨c', l', some, some', tracks⟩ := h.nextBranch
      · rw [none, none']
        rfl
      · rw [some, some']
        exact ih tracks

end Conversion

namespace Symbol

/-- The symbols of tokens are those of the expression that they are read as, and both fail alike. -/
theorem ofTokens_eq (ts : List Token) : ofTokens ts = (Expr.ofTokens ts).map Expr.symbols :=
  Conversion.tracks_start.run_eq ts

theorem ofQuantified_eq (limit : Option Nat) (ts : List Token) :
    ofQuantified limit ts = (Expr.ofQuantified limit ts).map Expr.symbols := by
  unfold ofQuantified Expr.ofQuantified
  split
  · cases expand limit ts with
    | error fault => rfl
    | ok us => exact ofTokens_eq us
  · exact ofTokens_eq ts

end Symbol

theorem Construction.ofTokens_eq (c : Construction) (ts : List Token) :
    c.ofTokens ts = match Expr.ofQuantified c.sizeLimit ts with
      | .error fault => .error (.ofFault c.sizeLimit fault)
      | .ok e => c.ofSymbols e.symbols := by
  rw [ofTokens, Symbol.ofQuantified_eq]
  cases Expr.ofQuantified c.sizeLimit ts <;> rfl

end ByteRegex
