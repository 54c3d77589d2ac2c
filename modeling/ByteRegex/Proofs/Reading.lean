import ByteRegex.Proofs.Phrase

/-! Reading the tokens of a tree, at any level and before any other tokens. A part of a pattern adds
its spans to the level on which it is read. Conversely, tokens that can be read are those of a pattern,
unless a repetition follows a quantifier. -/

namespace ByteRegex

open Relation

def Branch.Spans (haystack : List UInt8) : Branch → Nat → Nat → Prop
  | .empty => Still haystack
  | .single last => last.Spans haystack
  | .joined before last => Comp (before.Spans haystack) (last.Spans haystack)

namespace Level

def Spans (haystack : List UInt8) (l : Level) (i j : Nat) : Prop :=
  (∃ e ∈ l.branches, e.Spans haystack i j) ∨ l.branch.Spans haystack i j

def Pushes (haystack : List UInt8) (spans : Nat → Nat → Prop) (l l' : Level) : Prop :=
  ∃ e : Expr, e.Spans haystack = spans ∧ l' = l.push e

def Appends (haystack : List UInt8) (spans : Nat → Nat → Prop) (l l' : Level) : Prop :=
  l'.branches = l.branches ∧ l'.branch.Spans haystack = Comp (l.branch.Spans haystack) spans

def Fills (haystack : List UInt8) (spans : Nat → Nat → Prop) (l l' : Level) : Prop :=
  l = start → l'.Spans haystack = spans

end Level

/-- What reading a part of a pattern does to a level. -/
def Rank.Effect (haystack : List UInt8) (spans : Nat → Nat → Prop) : Rank → Level → Level → Prop
  | .item | .factor => Level.Pushes haystack spans
  | .piece | .branch => Level.Appends haystack spans
  | .pattern => Level.Fills haystack spans

def Reads (us : List Token) (effect : Level → Level → Prop) : Prop :=
  ∀ enclosing l rest e, Expr.read enclosing l (us ++ rest) = .ok e →
    ∃ l', effect l l' ∧ Expr.read enclosing l' rest = .ok e

variable {haystack : List UInt8} {us vs : List Token} {spans spans' : Nat → Nat → Prop}
  {effect effect' : Level → Level → Prop}

theorem Branch.within_spans (b : Branch) : Within haystack (b.Spans haystack) := by
  cases b with
  | empty => exact within_still
  | single last => exact last.within_spans
  | joined before last => exact before.within_spans.comp last.within_spans

theorem Branch.spans_push (b : Branch) (e : Expr) :
    (b.push e).Spans haystack = Comp (b.Spans haystack) (e.Spans haystack) := by
  cases b with
  | empty => exact (still_comp e.within_spans).symm
  | single last => rfl
  | joined before last => rfl

theorem Branch.spans_of_expr? {b : Branch} {e : Expr} (h : b.expr? = some e) :
    e.Spans haystack = b.Spans haystack := by
  cases b with
  | empty => cases h
  | single last | joined before last =>
    cases h
    rfl

namespace Level

variable {l l' : Level}

theorem Pushes.appends (h : Pushes haystack spans l l') : Appends haystack spans l l' := by
  obtain ⟨e, rfl, rfl⟩ := h
  exact ⟨rfl, l.branch.spans_push e⟩

theorem Appends.still : Appends haystack (Still haystack) l l :=
  ⟨rfl, (comp_still l.branch.within_spans).symm⟩

theorem Appends.of_comp (h : Comp (Appends haystack spans) (Appends haystack spans') l l') :
    Appends haystack (Comp spans spans') l l' := by
  obtain ⟨l₁, first, second⟩ := h
  refine ⟨second.1.trans first.1, ?_⟩
  rw [second.2, first.2, comp_assoc]

theorem Appends.spans_iff (h : Appends haystack spans l l') (empty : l.branch = .empty)
    (within : Within haystack spans) (i j : Nat) :
    l'.Spans haystack i j ↔ (∃ e ∈ l.branches, e.Spans haystack i j) ∨ spans i j := by
  have branch := h.2
  rw [empty, Branch.Spans, still_comp within] at branch
  rw [Spans, h.1, branch]

theorem repeatLast?_push (l : Level) (op : Repetition) (e : Expr) :
    (l.push e).repeatLast? op = some (l.push (.repeated op e)) := by
  obtain ⟨branches, branch⟩ := l
  cases branch <;> rfl

theorem spans_foldl (bs : List Expr) (e : Expr) (i j : Nat) :
    (bs.foldl (fun right left => .alternate left right) e).Spans haystack i j ↔
      (∃ b ∈ bs, b.Spans haystack i j) ∨ e.Spans haystack i j := by
  induction bs generalizing e with
  | nil => simp
  | cons b bs ih =>
    rw [List.foldl_cons, ih]
    simp only [Expr.Spans, List.mem_cons, exists_eq_or_imp]
    exact or_left_comm.trans (or_assoc.symm)

theorem spans_of_close {ifEmpty : Fault} {e : Expr} (h : l.close ifEmpty = .ok e) :
    e.Spans haystack = l.Spans haystack := by
  unfold close at h
  split at h
  next last found =>
    cases h
    ext i j
    rw [spans_foldl, Branch.spans_of_expr? found]
    rfl
  next => cases h

theorem branch_ne_of_close {ifEmpty : Fault} {e : Expr} (h : l.close ifEmpty = .ok e) :
    l.branch ≠ .empty := by
  intro empty
  simp [close, empty, Branch.expr?] at h

theorem branch_of_nextBranch? (h : l.nextBranch? = some l') :
    l.branch ≠ .empty ∧ l'.branch = .empty := by
  obtain ⟨e, found, rfl⟩ := Option.map_eq_some_iff.1 h
  refine ⟨fun empty => ?_, rfl⟩
  simp [empty, Branch.expr?] at found

theorem spans_of_nextBranch? (h : l.nextBranch? = some l') (i j : Nat) :
    (∃ e ∈ l'.branches, e.Spans haystack i j) ↔ l.Spans haystack i j := by
  obtain ⟨e, found, rfl⟩ := Option.map_eq_some_iff.1 h
  simp only [List.mem_cons, exists_eq_or_imp, Branch.spans_of_expr? found]
  exact or_comm

end Level

namespace Reads

theorem mono (h : Reads us effect) (weaker : ∀ l l', effect l l' → effect' l l') :
    Reads us effect' := by
  intro enclosing l rest e read
  obtain ⟨l', done, read'⟩ := h enclosing l rest e read
  exact ⟨l', weaker l l' done, read'⟩

theorem append (h : Reads us effect) (h' : Reads vs effect') :
    Reads (us ++ vs) (Comp effect effect') := by
  intro enclosing l rest e read
  rw [List.append_assoc] at read
  obtain ⟨l₁, first, read₁⟩ := h enclosing l (vs ++ rest) e read
  obtain ⟨l₂, second, read₂⟩ := h' enclosing l₁ rest e read₁
  exact ⟨l₂, ⟨l₁, first, second⟩, read₂⟩

theorem operand (item : Operand) :
    Reads [.operand item] (Level.Pushes haystack (item.Spans haystack)) :=
  fun _ _ _ _ read => ⟨_, ⟨.operand item, rfl, rfl⟩, read⟩

theorem parenthesized (h : Reads us effect) : Reads (.groupOpen :: us ++ [.groupClose]) fun l l' =>
    ∃ inner e, effect .start inner ∧ inner.close .emptyGroup = .ok e ∧ l' = l.push e := by
  intro enclosing l rest e read
  have opened : Expr.read (l :: enclosing) .start (us ++ (.groupClose :: rest)) = .ok e := by
    simpa [Expr.read] using read
  obtain ⟨inner, done, read'⟩ := h (l :: enclosing) .start _ e opened
  simp only [Expr.read] at read'
  split at read'
  next => cases read'
  next item closed => exact ⟨l.push item, ⟨inner, item, done, closed, rfl⟩, read'⟩

theorem group (h : Reads us (Level.Fills haystack spans)) :
    Reads (.groupOpen :: us ++ [.groupClose]) (Level.Pushes haystack spans) := by
  refine h.parenthesized.mono fun l l' => ?_
  rintro ⟨inner, e, filled, closed, rfl⟩
  exact ⟨e, (Level.spans_of_close closed).trans (filled rfl), rfl⟩

theorem repetition (h : Reads us (Level.Pushes haystack spans)) (op : Repetition) :
    Reads (us ++ [.repetition op]) (Level.Pushes haystack (op.Spans haystack spans)) := by
  intro enclosing l rest e read
  rw [List.append_assoc] at read
  obtain ⟨l₁, ⟨item, rfl, rfl⟩, read'⟩ := h enclosing l _ e read
  rw [List.singleton_append, Expr.read, Level.repeatLast?_push] at read'
  exact ⟨_, ⟨.repeated op item, rfl, rfl⟩, read'⟩

theorem alternation : Reads [.alternation] fun l l' => l.nextBranch? = some l' := by
  intro enclosing l rest e read
  simp only [List.singleton_append, Expr.read] at read
  split at read
  next => cases read
  next next found => exact ⟨next, found, read⟩

theorem still : Reads [] (Level.Appends haystack (Still haystack)) :=
  fun _ l _ _ read => ⟨l, .still, read⟩

theorem comp (h : Reads us (Level.Appends haystack spans))
    (h' : Reads vs (Level.Appends haystack spans')) :
    Reads (us ++ vs) (Level.Appends haystack (Comp spans spans')) :=
  (h.append h').mono fun _ _ => .of_comp

theorem copies (h : Reads us (Level.Appends haystack spans)) (n : Nat) :
    Reads (List.replicate n us).flatten (Level.Appends haystack (compositions haystack spans n)) := by
  induction n with
  | zero => exact still
  | succ n ih =>
    rw [List.replicate_succ, List.flatten_cons]
    exact h.comp ih

theorem unroll (within : Within haystack spans) (h : Reads us (Level.Pushes haystack spans))
    (b : Bounds) : Reads (b.unroll us) (Level.Appends haystack (b.Spans haystack spans)) := by
  have least := (h.mono fun _ _ => Level.Pushes.appends).copies b.least
  unfold Bounds.unroll
  cases most : b.most with
  | none =>
    rw [Bounds.spans_of_most_none within most]
    exact least.comp ((h.repetition .star).mono fun _ _ => Level.Pushes.appends)
  | some n =>
    rw [Bounds.spans_of_most_some within most]
    have once := (h.repetition .option).mono fun _ _ => Level.Pushes.appends
    exact least.comp (once.copies (n - b.least))

end Reads

/-- Every part of a pattern adds its spans to the level on which it is read. -/
theorem Phrase.reads {k : Rank} (x : Phrase k) :
    Reads x.written (k.Effect haystack (x.Spans haystack)) := by
  induction x with
  | operand item => exact .operand item
  | group inside ih => exact ih.group
  | once x ih => exact ih
  | repeated x op ih => exact ih.repetition op
  | plain x ih => exact ih.mono fun _ _ => Level.Pushes.appends
  | bounded x b bounds denotes ih => exact ih.unroll x.within_spans b
  | erased inside b bounds denotes zero => exact .still
  | first x ih => exact ih
  | next before x ihb ih => exact ihb.comp ih
  | last x ih =>
    refine ih.mono fun l l' appends fresh => ?_
    subst fresh
    ext i j
    rw [appends.spans_iff rfl x.within_spans]
    simp [Level.start, Phrase.Spans]
  | either before x ihb ih =>
    -- the level has the branches before the bar, and then those and the new one
    refine (ihb.append (Reads.alternation.append ih)).mono ?_
    rintro l l' ⟨l₁, filled, l₂, ended, appends⟩ fresh
    ext i j
    have fresh' := (Level.branch_of_nextBranch? ended).2
    rw [appends.spans_iff fresh' x.within_spans, Level.spans_of_nextBranch? ended, filled fresh]
    rfl

end ByteRegex
