import ByteRegex.Proofs.NodeLimit
import ByteRegex.Proofs.Violation

/-! Tokens after an end. Reading stops there and never sees them, but quantifiers are written out wherever
they stand. So tokens after the end go unnoticed only as long as their quantifiers can be written out,
which no limit on nodes leaves to them alone. -/

namespace ByteRegex

namespace Expansion

/-- Whether the same has been written out, with other tokens before it. -/
structure After (base : List Token) (e e' : Expansion) : Prop where
  written : e'.written = e.written ++ base
  afterRepetition : e'.afterRepetition = e.afterRepetition

/-- Whether no atom ends with the last of some tokens or has begun among them. The latest comes first. -/
structure Closed (base : List Token) : Prop where
  noAtom : splitAtom base = .error .danglingOperator
  noGroup : ∀ depth inside, splitGroup depth inside base = .error .unbalancedGroup

/-- Whether tokens after an end make no difference under a limit. They have to be written out by themselves,
and if the limit can be exceeded then no quantifier may be among them. -/
structure Ignorable (limit : Option Nat) (vs : List Token) : Prop where
  alone : ∃ us, expand none vs = .ok us
  plain : ∀ l, limit = some l → l < Counter.greatest → ∀ t ∈ vs, t.isQuantifier = false

variable {limit : Option Nat} {t : Token} {ts vs inside atom before base : List Token} {depth : Nat}
  {e e' f f' : Expansion} {b : Bounds}

theorem splitGroup_append (h : splitGroup depth inside ts = .ok (atom, before)) (base : List Token) :
    splitGroup depth inside (ts ++ base) = .ok (atom, before ++ base) := by
  fun_induction splitGroup depth inside ts with
  | case1 => cases h
  | case3 =>
    cases h
    rfl
  | case2 _ _ _ ih | case4 _ _ _ ih => exact ih h
  | case5 depth inside t before noClose noOpen ih =>
    rw [List.cons_append, splitGroup]
    · exact ih h
    · exact noClose
    · exact noOpen

theorem splitAtom_append (h : splitAtom ts = .ok (atom, before)) (base : List Token) :
    splitAtom (ts ++ base) = .ok (atom, before ++ base) := by
  unfold splitAtom at h
  split at h
  next =>
    cases h
    rfl
  next => exact splitGroup_append h base
  next => cases h

theorem After.push (h : After base e f) (t : Token) : After base (e.push t) (f.push t) :=
  ⟨by simp [h.written], rfl⟩

theorem After.unroll (e f : Expansion) (b : Bounds) (atom before base : List Token) :
    After base (e.unroll b atom before) (f.unroll b atom (before ++ base)) :=
  ⟨by simp, rfl⟩

theorem After.step (h : After base e f) (next : step none e t = .ok e') :
    ∃ f', Expansion.step none f t = .ok f' ∧ After base e' f' := by
  obtain ⟨plain, rfl⟩ | ⟨text, b, atom, before, rfl, fresh, read, split, rfl⟩ := step_cases next
  · exact ⟨f.push t, step_plain plain, h.push t⟩
  · have split' : splitAtom f.written = .ok (atom, before ++ base) :=
      h.written ▸ splitAtom_append split base
    exact ⟨f.unroll b atom (before ++ base), step_atom (h.afterRepetition.trans fresh) read split',
      .unroll e f b atom before base⟩

theorem After.steps (h : After base e f) (through : ts.foldlM (Expansion.step none) e = .ok e') :
    ∃ f', ts.foldlM (Expansion.step none) f = .ok f' ∧ After base e' f' := by
  induction ts generalizing e f with
  | nil =>
    cases through
    exact ⟨f, rfl, h⟩
  | cons t ts ih =>
    obtain ⟨e₁, first, others⟩ := steps_cons through
    obtain ⟨f₁, first', h'⟩ := h.step first
    obtain ⟨f', others', h''⟩ := ih h' others
    exact ⟨f', steps_cons_ok first' others', h''⟩

theorem after_of_start (e : Expansion) (fresh : e.afterRepetition = false) : After e.written start e :=
  ⟨rfl, fresh⟩

theorem steps_unbounded (unbounded : ∀ l, limit = some l → Counter.greatest ≤ l) (e : Expansion)
    (ts : List Token) : ts.foldlM (step limit) e = ts.foldlM (step none) e := by
  cases limit with
  | none => rfl
  | some l =>
    have same : step (some l) = step none := funext₂ (step_of_greatest_le (unbounded l rfl))
    rw [same]

theorem Ignorable.steps (h : Ignorable limit vs) (fresh : e.afterRepetition = false) :
    ∃ e' us, vs.foldlM (step limit) e = .ok e' ∧ e'.written = us ++ e.written := by
  by_cases unbounded : ∀ l, limit = some l → Counter.greatest ≤ l
  · obtain ⟨us, alone⟩ := h.alone
    obtain ⟨made, through, -⟩ := ok_of_map alone
    obtain ⟨e', through', after⟩ := (after_of_start e fresh).steps through
    exact ⟨e', made.written, (steps_unbounded unbounded e vs).trans through', after.written⟩
  · simp only [not_forall, Nat.not_le] at unbounded
    obtain ⟨l, set, small⟩ := unbounded
    obtain ⟨e', through, written⟩ := steps_plain (h.plain l set small) e
    exact ⟨e', vs.reverse, through, written⟩

theorem ignorable_of_plain (plain : ∀ t ∈ vs, t.isQuantifier = false) (limit : Option Nat) :
    Ignorable limit vs :=
  ⟨⟨vs, expand_plain plain⟩, fun _ _ _ => plain⟩

theorem splitGroup_of_not_mem (h : .groupOpen ∉ ts) (depth : Nat) (inside : List Token) :
    splitGroup depth inside ts = .error .unbalancedGroup := by
  fun_induction splitGroup depth inside ts with
  | case1 => rfl
  | case2 _ _ _ ih | case5 _ _ _ _ _ _ ih => exact ih fun later => h (List.mem_cons_of_mem _ later)
  | case3 | case4 => exact absurd (List.mem_cons_self ..) h

theorem closed_finish (h : .groupOpen ∉ ts) : Closed (.finish :: ts) :=
  ⟨rfl, fun depth inside => splitGroup_of_not_mem (by simp [h]) depth inside⟩

theorem Closed.splitGroup_eq (closed : Closed base) (depth : Nat) (inside ts : List Token) :
    splitGroup depth inside (ts ++ base) =
      (splitGroup depth inside ts).map fun (atom, before) => (atom, before ++ base) := by
  fun_induction splitGroup depth inside ts with
  | case1 depth inside => exact closed.noGroup depth inside
  | case3 => rfl
  | case2 _ _ _ ih | case4 _ _ _ ih => exact ih
  | case5 depth inside t before noClose noOpen ih =>
    rw [List.cons_append, splitGroup]
    · exact ih
    · exact noClose
    · exact noOpen

theorem Closed.splitAtom_eq (closed : Closed base) (ts : List Token) :
    splitAtom (ts ++ base) = (splitAtom ts).map fun (atom, before) => (atom, before ++ base) := by
  cases ts with
  | nil => exact closed.noAtom
  | cons t ts =>
    cases t with
    | groupClose => exact closed.splitGroup_eq 0 [.groupClose] ts
    | operand | repetition | quantifier | groupOpen | alternation | finish => rfl

theorem Closed.step (closed : Closed base) (h : After base e f) (next : step none f t = .ok f') :
    ∃ e', Expansion.step none e t = .ok e' ∧ After base e' f' := by
  obtain ⟨plain, rfl⟩ | ⟨text, b, atom, before, rfl, fresh, read, split, rfl⟩ := step_cases next
  · exact ⟨e.push t, step_plain plain, h.push t⟩
  · -- the atom begins among the tokens read alone, so it is split off there as well
    rw [h.written, closed.splitAtom_eq] at split
    obtain ⟨⟨atom', before'⟩, split', same⟩ := ok_of_map split
    cases same
    exact ⟨e.unroll b atom before', step_atom (h.afterRepetition.symm.trans fresh) read split',
      .unroll e f b atom before' base⟩

theorem Closed.steps (closed : Closed base) (h : After base e f)
    (through : ts.foldlM (Expansion.step none) f = .ok f') :
    ∃ e', ts.foldlM (Expansion.step none) e = .ok e' ∧ After base e' f' := by
  induction ts generalizing e f with
  | nil =>
    cases through
    exact ⟨e, rfl, h⟩
  | cons t ts ih =>
    obtain ⟨f₁, first, others⟩ := steps_cons through
    obtain ⟨e₁, first', h'⟩ := closed.step h first
    obtain ⟨e', others', h''⟩ := ih h' others
    exact ⟨e', steps_cons_ok first' others', h''⟩

theorem Closed.plain_of_steps (closed : Closed base) {limit : Nat} (counted : Counted limit ts f)
    (h : After base e f) (large : limit ≤ cost base)
    (through : ts.foldlM (Expansion.step (some limit)) f = .ok f') : ∀ t ∈ ts, t.isQuantifier = false := by
  induction ts generalizing e f with
  | nil => exact List.forall_mem_nil _
  | cons t ts ih =>
    obtain ⟨f₁, first, others⟩ := steps_cons through
    obtain ⟨counted', within⟩ := counted.step first
    obtain ⟨e₁, -, h'⟩ := closed.step h (step_unlimited first)
    refine List.forall_mem_cons.2 ⟨?_, ih counted' h' others⟩
    rw [h'.written, cost_append] at within
    by_contra quantified
    have less := within (by simpa using quantified)
    omega

theorem plain_of_no_nodes (h : ts.foldlM (step (some 0)) e = .ok e') : ∀ t ∈ ts, t.isQuantifier = false := by
  induction ts generalizing e with
  | nil => exact List.forall_mem_nil _
  | cons t ts ih =>
    obtain ⟨e₁, first, others⟩ := steps_cons h
    refine List.forall_mem_cons.2 ⟨?_, ih others⟩
    cases t with
    | quantifier text =>
      obtain ⟨fresh, b, atom, before, read, split, rfl⟩ := step_quantifier first
      rw [step_atom fresh read split] at first
      split at first
      · cases first
      case isFalse within =>
        have positive : 0 < Counter.add (e.nodesAfter b atom) 1 :=
          Nat.lt_min.2 ⟨Nat.succ_pos _, by decide⟩
        exact absurd (decide_eq_true positive) within
    | operand | repetition | groupOpen | groupClose | alternation | finish => rfl

theorem nodes_of_plain (plain : ∀ t ∈ ts, t.isQuantifier = false) (exact : e.nodes = cost e.written)
    (room : cost e.written + cost ts ≤ Counter.greatest) (h : ts.foldlM (step limit) e = .ok e') :
    e'.nodes = cost e'.written ∧ cost e'.written = cost e.written + cost ts := by
  induction ts generalizing e with
  | nil =>
    cases h
    exact ⟨exact, rfl⟩
  | cons t ts ih =>
    obtain ⟨e₁, first, others⟩ := steps_cons h
    rw [List.forall_mem_cons] at plain
    rw [cost_cons] at room ⊢
    have exact' := nodes_of_step exact first
    rw [step_plain plain.1] at first
    cases first
    have cost_push : cost (e.push t).written = t.cost + cost e.written := cost_cons t e.written
    obtain ⟨exact'', total⟩ := ih plain.2 (by omega) (by omega) others
    exact ⟨exact'', by omega⟩

end Expansion

namespace Expr

open Expansion

variable {limit : Option Nat} {us vs : List Token} {items : List Operand} {e : Expr}

theorem ofTokens_append_finish (us vs : List Token) : ofTokens (us ++ .finish :: vs) = ofTokens us := by
  have same : (us ++ .finish :: vs).takeWhile (· ≠ Token.finish) = us.takeWhile (· ≠ .finish) := by
    induction us with
    | nil => rfl
    | cons t us ih => simp only [List.cons_append, List.takeWhile_cons, ih]
  rw [ofTokens, ofTokens, ← read_takeWhile, same, read_takeWhile]

/-- What follows an end is written out after the rest, where it is not read. -/
theorem ofQuantified_of_ignorable (h : Ignorable limit vs) (us : List Token) :
    ofQuantified limit (us ++ .finish :: vs) = ofQuantified limit us := by
  rw [ofQuantified_eq, ofQuantified_eq, expand, expand, List.foldlM_append]
  cases us.foldlM (step limit) .start with
  | error fault => rfl
  | ok e =>
    obtain ⟨e', ws, steps, written⟩ := h.steps (e := e.push .finish) rfl
    have through : (Token.finish :: vs).foldlM (step limit) e = .ok e' := steps_cons_ok rfl steps
    have parts : e'.written.reverse = e.written.reverse ++ .finish :: ws.reverse := by simp [written]
    have read : ofTokens e'.written.reverse = ofTokens e.written.reverse := by
      rw [parts, ofTokens_append_finish]
    simpa only [bind, Except.bind, through, Except.map] using read

theorem plain_of_operands (items : List Operand) :
    ∀ t ∈ items.map Token.operand, t.isQuantifier = false := by
  simp [Token.isQuantifier]

theorem exists_of_operands (h : items ≠ []) (limit : Option Nat) :
    ∃ e, ofQuantified limit (items.map .operand) = .ok e := by
  have derives : ∃ e, Derives .branch (items.map .operand) e := by
    induction items using List.reverseRecOn with
    | nil => exact absurd rfl h
    | append_singleton items item ih =>
      have last : Derives .factor [.operand item] (.operand item) := .once (.operand item)
      rw [List.map_append, List.map_singleton]
      by_cases none : items = []
      · subst none
        exact ⟨_, .first last⟩
      · obtain ⟨e, before⟩ := ih none
        exact ⟨_, .next before last⟩
  obtain ⟨e, derives⟩ := derives
  rw [ofQuantified_eq, expand_plain (plain_of_operands items)]
  exact ⟨e, ofTokens_of_derives (.last derives)⟩

theorem cost_wildcards (n : Nat) : cost ((List.replicate n Operand.wildcard).map .operand) = n := by
  induction n with
  | zero => rfl
  | succ n ih =>
    rw [List.replicate_succ, List.map_cons, cost_cons, ih]
    exact Nat.add_comm 1 n

theorem exists_steps (h : ofQuantified limit (us ++ .finish :: vs) = .ok e) :
    ∃ e₁ e₂, us.foldlM (step limit) start = .ok e₁ ∧ vs.foldlM (step limit) (e₁.push .finish) = .ok e₂ := by
  rw [ofQuantified_eq] at h
  obtain ⟨out, expanded, -⟩ := ok_of_bind h
  obtain ⟨e₂, all, -⟩ := ok_of_map expanded
  obtain ⟨e₁, first, rest⟩ := steps_append all
  obtain ⟨ended, last, through⟩ := steps_cons rest
  cases last
  exact ⟨e₁, e₂, first, through⟩

theorem ignorable_of_ofQuantified (plain : ∀ t ∈ us, t.isQuantifier = false) (noGroup : .groupOpen ∉ us)
    (used : ∀ l, limit = some l → l < Counter.greatest →
      l ≤ cost us ∧ cost us + cost vs ≤ Counter.greatest ∧ l + cost vs < Counter.greatest)
    (h : ofQuantified limit (us ++ .finish :: vs) = .ok e) : Ignorable limit vs := by
  obtain ⟨e₁, e₂, first, through⟩ := exists_steps h
  obtain ⟨e₁', first', written⟩ : ∃ e', us.foldlM (step limit) start = .ok e' ∧ _ := steps_plain plain start
  cases first.symm.trans first'
  have closed : Closed (.finish :: us.reverse) := closed_finish (by simpa using noGroup)
  have after : After (.finish :: us.reverse) start (e₁.push .finish) := ⟨by simp [written], rfl⟩
  refine ⟨?_, fun l set small => ?_⟩
  · obtain ⟨made, alone, -⟩ := closed.steps after (steps_unlimited through)
    exact ⟨made.written.reverse, by rw [expand, alone]; rfl⟩
  · subst set
    obtain ⟨enough, room, spare⟩ := used l rfl small
    obtain ⟨exact, total⟩ := nodes_of_plain plain rfl (by rw [start_written, cost_nil]; omega) first
    rw [start_written, cost_nil] at total
    have same : cost (e₁.push .finish).written = cost e₁.written := Nat.zero_add _
    have counted : Counted l vs (e₁.push .finish) := by
      have within : cost e₁.written ≤ Counter.greatest := total ▸ (by omega)
      refine ⟨?_, by omega, spare⟩
      rw [same, ← exact]
      exact Counter.add_of_le (exact ▸ within)
    refine closed.plain_of_steps counted after ?_ through
    rw [cost_cons, cost_reverse]
    exact Nat.le_trans enough (Nat.le_add_left _ _)

end Expr

namespace Symbol

open Expansion ByteRegex.Expr

variable {limit : Option Nat} {us vs : List Token}

theorem forall_eq_iff_ignorable
    (spare : ∀ l, limit = some l → l + Expansion.cost vs < Counter.greatest ∨ Counter.greatest ≤ l) :
    (∀ us, .finish ∉ us → ofQuantified limit (us ++ .finish :: vs) = ofQuantified limit us) ↔
      Ignorable limit vs := by
  simp only [ofQuantified_eq]
  refine ⟨fun same => ?_, fun ignorable us _ => by rw [ofQuantified_of_ignorable ignorable]⟩
  -- operands that use up the limit, and one at least
  obtain ⟨n, positive, enough⟩ : ∃ n, n ≠ 0 ∧ ∀ l, limit = some l → n = max l 1 :=
    ⟨max (limit.getD 0) 1, by omega, by rintro l rfl; rfl⟩
  have items : List.replicate n Operand.wildcard ≠ [] := by simpa using positive
  obtain ⟨e, read⟩ := exists_of_operands items limit
  have listed := same ((List.replicate n Operand.wildcard).map .operand) (by simp)
  rw [read] at listed
  obtain ⟨e', read', -⟩ := ok_of_map listed
  refine ignorable_of_ofQuantified (plain_of_operands _) (by simp) (fun l set small => ?_) read'
  have room := (spare l set).resolve_right (Nat.not_le.2 small)
  rw [cost_wildcards, enough l set]
  refine ⟨?_, ?_, room⟩ <;> omega

/-- Tokens after an end are never converted. Still they make no difference under every limit only if there
is no quantifier among them. For a single limit it is the same, and without a limit, or with one that is
never exceeded, it is enough that they can be written out by themselves. -/
theorem nothing_after_end (vs : List Token) :
    (∀ us, ofTokens (us ++ .finish :: vs) = ofTokens us) ∧
    ((∀ limit us, .finish ∉ us → ofQuantified limit (us ++ .finish :: vs) = ofQuantified limit us) ↔
      ∀ t ∈ vs, t.isQuantifier = false) ∧
    ∀ limit, (∀ l, limit = some l → l + Expansion.cost vs < Counter.greatest ∨ Counter.greatest ≤ l) →
      ((∀ us, .finish ∉ us → ofQuantified limit (us ++ .finish :: vs) = ofQuantified limit us) ↔
        Ignorable limit vs) := by
  refine ⟨fun us => ?_, ⟨fun same => ?_, fun plain limit us _ => ?_⟩,
    fun limit => forall_eq_iff_ignorable⟩
  · rw [ofTokens_eq, ofTokens_eq, ofTokens_append_finish]
  -- a limit of no nodes at all tells quantifiers apart from other tokens
  · obtain ⟨e, read⟩ := exists_of_operands (List.cons_ne_nil Operand.wildcard []) (some 0)
    have listed := same (some 0) [.operand .wildcard] (by simp)
    rw [ofQuantified_eq, ofQuantified_eq, ← List.map_singleton, read] at listed
    obtain ⟨e', read', -⟩ := ok_of_map listed
    obtain ⟨e₁, e₂, -, through⟩ := exists_steps read'
    exact plain_of_no_nodes through
  · rw [ofQuantified_eq, ofQuantified_eq, ofQuantified_of_ignorable (ignorable_of_plain plain limit)]

theorem nothing_after_end_of_copies :
    (∀ us, .finish ∉ us →
      ofQuantified none (us ++ .finish :: [.operand .wildcard, .quantifier "\x7b2\x7d"]) =
        ofQuantified none us) ∧
    ¬∀ limit us, .finish ∉ us →
      ofQuantified limit (us ++ .finish :: [.operand .wildcard, .quantifier "\x7b2\x7d"]) =
        ofQuantified limit us := by
  have outcome := nothing_after_end [.operand .wildcard, .quantifier "\x7b2\x7d"]
  have alone : (expand none [.operand .wildcard, .quantifier "\x7b2\x7d"]).isOk = true := by
    decide +kernel
  have unlimited : ∀ l, (none : Option Nat) ≠ some l := fun l => Option.some_ne_none l ∘ Eq.symm
  refine ⟨(outcome.2.2 none fun l set => absurd set (unlimited l)).2
    ⟨exists_of_isOk alone, fun l set => absurd set (unlimited l)⟩, fun same => ?_⟩
  have plain := outcome.2.1.1 same (.quantifier "\x7b2\x7d") (by simp)
  cases plain

/-- A pattern does not end with its end if a quantifier is next. -/
theorem quantifier_after_end :
    .finish ∉ [Token.operand (.literal 'a')] ∧
    ofQuantified none [.operand (.literal 'a')] = .ok [.operand (.literal 'a')] ∧
    ofQuantified none ([.operand (.literal 'a')] ++ .finish :: [.quantifier "\x7b2\x7d"]) =
      .error .danglingOperator :=
  ⟨by decide, rfl, rfl⟩

end Symbol

end ByteRegex
