import ByteRegex.Proofs.Faults

/-! Patterns as trees in which any item may have a quantifier and repetitions after that. Writing out the
quantifiers of a tree follows the tree: a group is written out before it is copied, so what is found
backwards from a quantifier is the whole item before it, with nothing left to write out. Tokens without
quantifiers stay as they are. -/

namespace ByteRegex

structure Quantifier where
  text : String
  bounds : Bounds
  valid : Bounds.ofText text = .ok bounds

/-- What a part of a tree is: something that can be quantified, pieces side by side, or branches. -/
inductive Layer
  | item
  | row
  | choice

/-- The parts of a pattern. A row may be empty, which writing out does not mind. -/
inductive PatternTree : Layer → Type
  | operand (x : Operand) : PatternTree .item
  | group (inside : PatternTree .choice) : PatternTree .item
  | empty : PatternTree .row
  | piece (before : PatternTree .row) (x : PatternTree .item) (q : Option Quantifier)
      (ops : List Repetition) : PatternTree .row
  | single (x : PatternTree .row) : PatternTree .choice
  | either (before : PatternTree .choice) (x : PatternTree .row) : PatternTree .choice

/-- The copies of an item that bounds ask for. With a greatest count the copies beyond the least are
optional, and without one the last of them is starred. -/
def Bounds.inFull (b : Bounds) (item : List Token) : List Token :=
  match b.most with
  | none => (List.replicate (b.least + 1) item).flatten ++ [.repetition .star]
  | some most => (List.replicate b.least item).flatten ++
      (List.replicate (most - b.least) (item ++ [.repetition .option])).flatten

theorem Bounds.unroll_eq_inFull (b : Bounds) (item : List Token) : b.unroll item = b.inFull item := by
  unfold unroll inFull
  cases b.most with
  | none => simp [List.replicate_succ']
  | some most => rfl

namespace PatternTree

def tokens {l : Layer} : PatternTree l → List Token
  | operand x => [.operand x]
  | group inside => .groupOpen :: inside.tokens ++ [.groupClose]
  | empty => []
  | piece before x q ops =>
    before.tokens ++ x.tokens ++ (q.toList.map fun q => .quantifier q.text) ++ ops.map .repetition
  | single x => x.tokens
  | either before x => before.tokens ++ .alternation :: x.tokens

def unrolled {l : Layer} : PatternTree l → List Token
  | operand x => [.operand x]
  | group inside => .groupOpen :: inside.unrolled ++ [.groupClose]
  | empty => []
  | piece before x none ops => before.unrolled ++ x.unrolled ++ ops.map .repetition
  | piece before x (some q) ops => before.unrolled ++ q.bounds.inFull x.unrolled ++ ops.map .repetition
  | single x => x.unrolled
  | either before x => before.unrolled ++ .alternation :: x.unrolled

open Expansion

theorem neutral_repetitions (ops : List Repetition) : Neutral (ops.map .repetition) := by
  induction ops with
  | nil => exact neutral_nil
  | cons op ops ih => exact (neutral_repetition op).append ih

theorem neutral_unrolled {l : Layer} (x : PatternTree l) : Neutral x.unrolled := by
  induction x with
  | operand x => exact neutral_operand x
  | group inside ih => exact ih.group
  | empty => exact neutral_nil
  | piece before x q ops ihb ih =>
    cases q with
    | none => exact (ihb.append ih).append (neutral_repetitions ops)
    | some q =>
      rw [unrolled, ← Bounds.unroll_eq_inFull]
      exact (ihb.append (ih.unroll q.bounds)).append (neutral_repetitions ops)
  | single x ih => exact ih
  | either before x ihb ih => exact ihb.append (neutral_alternation.append ih)

theorem splitAtom_unrolled (x : PatternTree .item) (before : List Token) :
    splitAtom (x.unrolled.reverse ++ before) = .ok (x.unrolled, before) := by
  cases x with
  | operand x => rfl
  | group inside => exact inside.neutral_unrolled.splitAtom before

theorem step_unrolled (x : PatternTree .item) (q : Quantifier) {e : Expansion} {before : List Token}
    (written : e.written = x.unrolled.reverse ++ before) (fresh : e.afterRepetition = false) :
    step none e (.quantifier q.text) = .ok (e.unroll q.bounds x.unrolled before) :=
  step_atom fresh q.valid (written ▸ x.splitAtom_unrolled before)

/-- Writing out the tokens of a tree adds the tree in full to what was written before. An item does not
end in a repetition, so a quantifier may follow it. -/
theorem steps_unrolled {l : Layer} (x : PatternTree l) (e : Expansion) :
    ∃ e', x.tokens.foldlM (step none) e = .ok e' ∧ e'.written = x.unrolled.reverse ++ e.written ∧
      (l = .item → e'.afterRepetition = false) := by
  induction x generalizing e with
  | operand x => exact ⟨_, rfl, rfl, fun _ => rfl⟩
  | group inside ih =>
    obtain ⟨e₁, through, written, -⟩ := ih (e.push .groupOpen)
    refine ⟨e₁.push .groupClose, ?_, by simp [unrolled, written], fun _ => rfl⟩
    exact steps_cons_ok rfl (steps_append_ok through rfl)
  | empty => exact ⟨e, rfl, rfl, fun row => nomatch row⟩
  | piece before x q ops ihb ih =>
    obtain ⟨e₁, earlier, written₁, -⟩ := ihb e
    obtain ⟨e₂, item, written₂, fresh⟩ := ih e₁
    have plain : ∀ t ∈ ops.map Token.repetition, t.isQuantifier = false := by simp [Token.isQuantifier]
    cases q with
    | none =>
      obtain ⟨e₃, repeated, written₃⟩ := steps_plain plain e₂
      refine ⟨e₃, ?_, by simp [unrolled, written₁, written₂, written₃], fun row => nomatch row⟩
      exact steps_append_ok (steps_append_ok (steps_append_ok earlier item) rfl) repeated
    -- the item does not end in a repetition, so the quantifier is not refused
    | some q =>
      have quantified : [Token.quantifier q.text].foldlM (step none) e₂ =
          .ok (e₂.unroll q.bounds x.unrolled e₁.written) :=
        steps_cons_ok (x.step_unrolled q written₂ (fresh rfl)) rfl
      obtain ⟨e₃, repeated, written₃⟩ := steps_plain plain (e₂.unroll q.bounds x.unrolled e₁.written)
      refine ⟨e₃, ?_, ?_, fun row => nomatch row⟩
      · exact steps_append_ok (steps_append_ok (steps_append_ok earlier item) quantified) repeated
      · simp [unrolled, written₁, written₃, Bounds.unroll_eq_inFull]
  | single x ih =>
    obtain ⟨e', steps, written, -⟩ := ih e
    exact ⟨e', steps, written, fun choice => nomatch choice⟩
  | either before x ihb ih =>
    obtain ⟨e₁, earlier, written₁, -⟩ := ihb e
    obtain ⟨e₂, later, written₂, -⟩ := ih (e₁.push .alternation)
    refine ⟨e₂, ?_, by simp [unrolled, written₁, written₂], fun choice => nomatch choice⟩
    exact steps_append_ok earlier (steps_cons_ok rfl later)

theorem expand_tokens {l : Layer} (x : PatternTree l) {rest : List Token} (plain : Plain rest) :
    expand none (x.tokens ++ rest) = .ok (x.unrolled ++ rest) := by
  obtain ⟨e₁, first, written₁, -⟩ := x.steps_unrolled .start
  obtain ⟨e₂, last, written₂⟩ := steps_plain plain e₁
  rw [expand, steps_append_ok first last]
  simp [Except.map, written₁, written₂]

theorem convert_eq_bind (limit : Option Nat) (ts : List Token) :
    Symbol.ofQuantified limit ts = (expand limit ts).bind Symbol.ofTokens := by
  rw [Symbol.ofQuantified_eq, Expr.ofQuantified_eq]
  cases expand limit ts with
  | error fault => rfl
  | ok us => exact (Symbol.ofTokens_eq us).symm

/-- Writing out quantifiers is exact unrolling, at every depth, and quantifiers have all texts of bounds that
fit in 64 bits. No quantifier is ever left. Tokens without quantifiers stay as they are, so the symbols
are the same if they are converted at once. -/
theorem expand_unrolled :
    (∀ (b : Bounds) (inside : List Char), b.Denotes inside → b.Fits →
      ∃ q : Quantifier, Token.quantifier q.text = .ofBounds inside ∧ q.bounds = b) ∧
    (∀ x : PatternTree .choice, expand none x.tokens = .ok x.unrolled ∧
      expand none (x.tokens ++ [.finish]) = .ok (x.unrolled ++ [.finish])) ∧
    (∀ limit ts us, expand limit ts = .ok us → Plain us) ∧
    (∀ limit ts, Plain ts → expand limit ts = .ok ts) ∧
    ∀ limit ts, Symbol.ofQuantified limit ts = (expand limit ts).bind Symbol.ofTokens := by
  refine ⟨fun b inside denotes fits => ?_, fun x => ⟨?_, ?_⟩, fun limit ts us => plain_of_expand,
    fun limit ts => expand_plain, convert_eq_bind⟩
  · exact ⟨⟨_, b, denotes.ofText_eq_ok fits⟩, rfl, rfl⟩
  · have alone := x.expand_tokens (List.forall_mem_nil fun t : Token => t.isQuantifier = false)
    rwa [List.append_nil, List.append_nil] at alone
  · exact x.expand_tokens (List.forall_mem_singleton.2 rfl)

theorem expand_unrolled_of_group :
    let a := Token.operand (.literal 'a')
    let inner := [.groupOpen, a, a, .repetition .option, .alternation, .repetition .plus, .groupClose]
    let outer := inner ++ (inner ++ [.repetition .star, .repetition .option])
    expand none [.groupOpen, a, .ofBounds ['1', ',', '2'], .alternation, .operand .wildcard,
        .ofBounds ['0', ',', '0'], .repetition .plus, .groupClose, .ofBounds ['1'], .repetition .option] =
      .ok outer ∧ Plain outer ∧ expand (some 0) [a, .repetition .star] = .ok [a, .repetition .star] := by
  intro a inner outer
  have zero : Bounds.Numeral ['0'] 0 := ⟨List.cons_ne_nil _ _, List.forall_mem_singleton.2 rfl, rfl⟩
  have one : Bounds.Numeral ['1'] 1 := ⟨List.cons_ne_nil _ _, List.forall_mem_singleton.2 rfl, rfl⟩
  have two : Bounds.Numeral ['2'] 2 := ⟨List.cons_ne_nil _ _, List.forall_mem_singleton.2 rfl, rfl⟩
  obtain ⟨p, text, bounds⟩ := expand_unrolled.1 _ _ (.pair one two (by decide))
    ⟨by decide, fun m same => by cases same; decide⟩
  obtain ⟨q, text', bounds'⟩ := expand_unrolled.1 _ _ (.pair zero zero (by decide))
    ⟨by decide, fun m same => by cases same; decide⟩
  obtain ⟨r, text'', bounds''⟩ := expand_unrolled.1 _ _ (.single one)
    ⟨by decide, fun m same => nomatch same⟩
  let x : PatternTree .choice := .either (.single (.piece .empty (.operand (.literal 'a')) (some p) []))
    (.piece .empty (.operand .wildcard) (some q) [.plus])
  let y : PatternTree .choice := .single (.piece .empty (.group x) (some r) [.option])
  have written : expand none y.tokens = .ok outer := by
    rw [(expand_unrolled.2.1 y).1]
    simp [x, y, a, inner, outer, unrolled, bounds, bounds', bounds'', Bounds.inFull, Bounds.atLeast]
  refine ⟨?_, expand_unrolled.2.2.1 _ _ _ written, expand_unrolled.2.2.2.1 _ _ ?_⟩
  · rw [← written]
    simp [x, y, a, tokens, text, text', text'']
  · simp [Plain, a, Token.isQuantifier]

end PatternTree

end ByteRegex
