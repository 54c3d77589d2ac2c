import ByteRegex.Proofs.Faults
import ByteRegex.Proofs.Flow

/-! How many nodes a pattern needs, and what a limit on them does. Reading tokens keeps their cost, so
the nodes are counted by the tokens that are left when quantifiers are written out. The limit is looked
at twice, while the quantifiers are written out and while nodes are added, and it is the same limit:
what is written never costs less later on, unless a quantifier erases its atom. The counter that is
compared with the limit is the cost of what is written, as long as it can hold that. -/

namespace ByteRegex

def Branch.width : Branch → Nat
  | .empty => 0
  | .single last => last.width
  | .joined before last => before.width + last.width

/-- The nodes of a level, as far as it is read. Each branch that has ended is joined to the next. -/
def Level.width (l : Level) : Nat :=
  l.branches.foldr (fun e n => e.width + 1 + n) l.branch.width

namespace Branch

theorem width_push (b : Branch) (e : Expr) : (b.push e).width = b.width + e.width := by
  cases b with
  | empty => exact (Nat.zero_add _).symm
  | single last => rfl
  | joined before last => rfl

theorem width_of_repeatLast? {b b' : Branch} {op : Repetition} (h : b.repeatLast? op = some b') :
    b'.width = b.width + 1 := by
  cases b with
  | empty => cases h
  | single last | joined before last =>
    cases h
    rfl

theorem width_of_expr? {b : Branch} {e : Expr} (h : b.expr? = some e) : e.width = b.width := by
  cases b with
  | empty => cases h
  | single last | joined before last =>
    cases h
    rfl

end Branch

namespace Level

theorem width_eq (l : Level) : l.width = width ⟨l.branches, .empty⟩ + l.branch.width := by
  obtain ⟨branches, branch⟩ := l
  induction branches with
  | nil => exact (Nat.zero_add _).symm
  | cons e branches ih =>
    simp only [width, List.foldr_cons] at ih ⊢
    omega

theorem width_push (l : Level) (e : Expr) : (l.push e).width = l.width + e.width := by
  rw [width_eq, width_eq l, push, Branch.width_push, Nat.add_assoc]

theorem width_of_repeatLast? {l l' : Level} {op : Repetition} (h : l.repeatLast? op = some l') :
    l'.width = l.width + 1 := by
  obtain ⟨branch, repeated, rfl⟩ := Option.map_eq_some_iff.1 h
  rw [width_eq, width_eq l, Branch.width_of_repeatLast? repeated, Nat.add_assoc]

theorem width_of_nextBranch? {l l' : Level} (h : l.nextBranch? = some l') :
    l'.width = l.width + 1 := by
  obtain ⟨e, found, rfl⟩ := Option.map_eq_some_iff.1 h
  rw [width_eq l, ← Branch.width_of_expr? found]
  simp only [width, List.foldr_cons, Branch.width]
  omega

theorem width_foldl (branches : List Expr) (e : Expr) :
    (branches.foldl (fun right left => .alternate left right) e).width =
      width ⟨branches, .single e⟩ := by
  induction branches generalizing e with
  | nil => rfl
  | cons left branches ih =>
    rw [List.foldl_cons, ih, width_eq, width_eq ⟨left :: branches, .single e⟩]
    simp only [width, Branch.width, List.foldr_cons, Expr.width]
    omega

theorem width_of_close {l : Level} {ifEmpty : Fault} {e : Expr} (h : l.close ifEmpty = .ok e) :
    e.width = l.width := by
  unfold close at h
  split at h
  next last found =>
    cases h
    rw [width_foldl, width_eq, width_eq l, ← Branch.width_of_expr? found]
    rfl
  next => cases h

end Level

namespace Expr

def widths (levels : List Level) : Nat :=
  levels.foldr (fun l n => l.width + n) 0

theorem width_operand (item : Operand) : (operand item).width = Token.cost (.operand item) := by
  cases item with
  | literal c =>
    have pos := c.utf8Size_pos
    simp only [width, Operand.lead, Token.cost_literal]
    omega
  | charClass text | wildcard | anchor place => rfl

/-- The expression that tokens make has the nodes that they cost, besides those of the levels inside of
which the tokens are read. -/
theorem width_of_read {enclosing : List Level} {level : Level} {ts : List Token} {e : Expr}
    (noFinish : .finish ∉ ts) (h : read enclosing level (ts ++ [.finish]) = .ok e) :
    e.width = widths enclosing + level.width + Expansion.cost ts := by
  -- each token moves its cost from the tokens to the level or to those around it
  induction ts generalizing enclosing level with
  | nil =>
    cases enclosing with
    | nil =>
      have closed : level.close .emptyPattern = .ok e := h
      rw [Level.width_of_close closed]
      exact (Nat.zero_add _).symm
    | cons outer enclosing => cases h
  | cons t ts ih =>
    simp only [List.mem_cons, not_or] at noFinish
    rw [Expansion.cost_cons]
    cases t with
    | finish => exact absurd rfl noFinish.1
    | operand item =>
      rw [ih noFinish.2 h, Level.width_push, width_operand]
      omega
    | quantifier text =>
      simp only [List.cons_append, read] at h
      split at h <;> cases h
    | groupOpen =>
      rw [ih noFinish.2 h]
      simp only [widths, List.foldr_cons, Level.width, Level.start, Branch.width, List.foldr_nil,
        Token.cost_groupOpen]
      omega
    | repetition op =>
      simp only [List.cons_append, read] at h
      split at h
      next => cases h
      next l repeated =>
        rw [ih noFinish.2 h, Level.width_of_repeatLast? repeated, Token.cost_repetition]
        omega
    | alternation =>
      simp only [List.cons_append, read] at h
      split at h
      next => cases h
      next l ended =>
        rw [ih noFinish.2 h, Level.width_of_nextBranch? ended, Token.cost_alternation]
        omega
    | groupClose =>
      cases enclosing with
      | nil => cases h
      | cons outer enclosing =>
        simp only [List.cons_append, read] at h
        split at h
        next => cases h
        next inner closed =>
          rw [ih noFinish.2 h, Level.width_push, Level.width_of_close closed]
          simp only [widths, List.foldr_cons, Token.cost_groupClose]
          omega

end Expr

/-- A quantifier that asks for no copies at all. -/
def Token.Erases (t : Token) : Prop :=
  ∃ text b, t = quantifier text ∧ Bounds.ofText text = .ok b ∧ b.most = some 0

namespace Expansion

variable {e e' : Expansion} {t : Token} {ts us : List Token} {limit : Nat}

theorem cost_reverse (ts : List Token) : cost ts.reverse = cost ts := by
  induction ts with
  | nil => rfl
  | cons t ts ih =>
    rw [List.reverse_cons, cost_append, ih, cost_cons, cost_cons, cost_nil]
    omega

theorem cost_unroll_reverse (b : Bounds) (atom before : List Token) :
    cost ((b.unroll atom).reverse ++ before) = cost before + b.unrolledCost (cost atom) := by
  rw [cost_append, cost_reverse, Bounds.cost_unroll, Nat.add_comm]

theorem cost_of_splitAtom {atom before : List Token} (h : splitAtom ts = .ok (atom, before)) :
    cost ts = cost before + cost atom := by
  rw [eq_of_splitAtom h, cost_append, cost_reverse, Nat.add_comm]

theorem nodes_le_of_step {limit : Option Nat} (bound : e.nodes ≤ cost e.written)
    (h : step limit e t = .ok e') : e'.nodes ≤ cost e'.written := by
  obtain ⟨-, rfl⟩ | ⟨text, b, atom, before, rfl, -, -, split, rfl⟩ := step_cases h
  · calc (e.push t).nodes
        ≤ e.nodes + t.cost := Counter.add_le _ _
      _ ≤ cost (e.push t).written := by
        rw [push_written, cost_cons]
        omega
  · rw [cost_of_splitAtom split] at bound
    calc e.nodesAfter b atom
        ≤ e.nodes - cost atom + b.countedCost (cost atom) := Counter.add_le _ _
      _ ≤ cost before + b.unrolledCost (cost atom) := by
        rw [Bounds.countedCost_eq]
        omega
      _ = cost (e.unroll b atom before).written := (cost_unroll_reverse b atom before).symm

/-- A counter that is exact stays so as long as it can hold the cost. -/
theorem nodes_of_step {limit : Option Nat} (exact : e.nodes = cost e.written)
    (h : step limit e t = .ok e') : e'.nodes = min (cost e'.written) Counter.greatest := by
  obtain ⟨-, rfl⟩ | ⟨text, b, atom, before, rfl, -, -, split, rfl⟩ := step_cases h
  · rw [push_written, cost_cons, Nat.add_comm, ← exact]
    rfl
  · -- the atom was counted in full, so taking its cost away leaves that of the tokens before it
    rw [unroll_written, cost_unroll_reverse, ← Counter.add_min, ← Bounds.countedCost_eq]
    rw [cost_of_splitAtom split] at exact
    show Counter.add (e.nodes - cost atom) _ = _
    rw [exact, Nat.add_sub_cancel]

/-- Whether the counter is exact and will be so until the rest is read, whatever a limit lets pass. -/
structure Counted (limit : Nat) (rest : List Token) (e : Expansion) : Prop where
  exact : e.nodes = cost e.written
  room : cost e.written + cost rest ≤ Counter.greatest
  spare : limit + cost rest < Counter.greatest

theorem counted_start (spare : limit + cost ts < Counter.greatest) : Counted limit ts start :=
  ⟨rfl, by rw [start_written, cost_nil]; omega, spare⟩

theorem Counted.exceeds_iff (h : Counted limit us e) {atom before : List Token} (b : Bounds)
    (split : splitAtom e.written = .ok (atom, before)) :
    exceeds (e.nodesAfter b atom) (some limit) = true ↔
      limit ≤ cost (e.unroll b atom before).written := by
  have exact := h.exact
  have spare := h.spare
  rw [cost_of_splitAtom split] at exact
  rw [exceeds, decide_eq_true_eq, nodesAfter, exact, Nat.add_sub_cancel, Bounds.countedCost_eq,
    Counter.add_min, unroll_written, cost_unroll_reverse, Counter.add]
  omega

theorem Counted.step (h : Counted limit (t :: ts) e) (next : step (some limit) e t = .ok e') :
    Counted limit ts e' ∧ (t.isQuantifier = true → cost e'.written < limit) := by
  have room := h.room
  have spare := h.spare
  rw [cost_cons] at room spare
  have exact := nodes_of_step h.exact next
  obtain ⟨plain, rfl⟩ | ⟨text, b, atom, before, rfl, fresh, read, split, rfl⟩ := step_cases next
  · have cost_push : cost (e.push t).written = t.cost + cost e.written := cost_cons t e.written
    refine ⟨⟨?_, ?_, ?_⟩, fun other => absurd (plain.symm.trans other) Bool.false_ne_true⟩ <;> omega
  · rw [step_atom fresh read split] at next
    split at next
    · cases next
    case isFalse within =>
      -- what passed the limit is below it, so that the counter can hold it
      rw [h.exceeds_iff b split, Nat.not_le] at within
      refine ⟨⟨?_, ?_, ?_⟩, fun _ => within⟩ <;> omega

theorem step_of_greatest_le (large : Counter.greatest ≤ limit) (e : Expansion) (t : Token) :
    Expansion.step (some limit) e t = Expansion.step none e t := by
  have never (nodes : Nat) : exceeds nodes (some limit) = exceeds nodes none := by
    refine decide_eq_false (Nat.not_lt.2 ?_)
    exact Nat.le_trans (Nat.min_le_right _ _) large
  cases t with
  | quantifier text => simp only [Expansion.step, never]
  | operand | repetition | groupOpen | groupClose | alternation | finish => rfl

theorem le_unrolledCost {b : Bounds} (kept : b.most ≠ some 0) (n : Nat) : n ≤ b.unrolledCost n := by
  have copies : 1 ≤ b.least + b.extra := by
    obtain ⟨least, _ | most, _⟩ := b
    · exact Nat.le_add_left 1 least
    · have pos : most ≠ 0 := fun none => kept (congrArg some none)
      simp only [Bounds.extra]
      omega
  exact Nat.le_trans (Nat.le_mul_of_pos_right n copies) (Nat.le_add_right _ _)

theorem cost_le_of_step {limit : Option Nat} (kept : ¬t.Erases) (h : step limit e t = .ok e') :
    cost e.written ≤ cost e'.written := by
  obtain ⟨-, rfl⟩ | ⟨text, b, atom, before, rfl, -, read, split, rfl⟩ := step_cases h
  · exact Nat.le_add_left _ _
  · have least := le_unrolledCost (fun zero => kept ⟨text, b, rfl, read, zero⟩) (cost atom)
    rw [cost_of_splitAtom split, unroll_written, cost_unroll_reverse]
    omega

theorem cost_le_of_steps {limit : Option Nat} (kept : ∀ t ∈ ts, ¬t.Erases)
    (h : ts.foldlM (step limit) e = .ok e') : cost e.written ≤ cost e'.written := by
  induction ts generalizing e with
  | nil =>
    cases h
    exact Nat.le_refl _
  | cons t ts ih =>
    obtain ⟨e₁, first, others⟩ := steps_cons h
    rw [List.forall_mem_cons] at kept
    exact Nat.le_trans (cost_le_of_step kept.1 first) (ih kept.2 others)

theorem nodes_of_steps {limit : Option Nat} (kept : ∀ t ∈ ts, ¬t.Erases) (exact : e.nodes = cost e.written)
    (h : ts.foldlM (step limit) e = .ok e') (fits : cost e'.written ≤ Counter.greatest) :
    e'.nodes = cost e'.written := by
  induction ts generalizing e with
  | nil =>
    cases h
    exact exact
  | cons t ts ih =>
    obtain ⟨e₁, first, others⟩ := steps_cons h
    rw [List.forall_mem_cons] at kept
    have grown := cost_le_of_steps kept.2 others
    have exact' := nodes_of_step exact first
    exact ih kept.2 (exact'.trans (Nat.min_eq_left (Nat.le_trans grown fits))) others

theorem step_limited (bound : e.nodes ≤ cost e.written) (h : step none e t = .ok e') (limit : Nat) :
    step (some limit) e t = .ok e' ∨
      step (some limit) e t = .error .expansionTooLarge ∧ limit < cost e'.written + 1 := by
  have bound' := nodes_le_of_step bound h
  obtain ⟨plain, rfl⟩ | ⟨text, b, atom, before, rfl, fresh, read, split, rfl⟩ := step_cases h
  · exact .inl (step_plain plain)
  · rw [step_atom fresh read split]
    split
    case isTrue exceeding =>
      rw [exceeds, decide_eq_true_eq] at exceeding
      refine .inr ⟨rfl, Nat.lt_of_lt_of_le exceeding (Nat.le_trans (Counter.add_le _ _) ?_)⟩
      exact Nat.succ_le_succ bound'
    case isFalse => exact .inl rfl

/-- Under a limit tokens are written out in the same way or not at all. The latter only happens if they
cost too much in the end, unless the cost went down on the way. -/
theorem steps_limited (bound : e.nodes ≤ cost e.written) (h : ts.foldlM (step none) e = .ok e')
    (limit : Nat) :
    ts.foldlM (step (some limit)) e = .ok e' ∨
      ts.foldlM (step (some limit)) e = .error .expansionTooLarge ∧
        ((∀ t ∈ ts, ¬t.Erases) → limit < cost e'.written + 1) := by
  induction ts generalizing e with
  | nil =>
    cases h
    exact .inl rfl
  | cons t ts ih =>
    obtain ⟨e₁, first, others⟩ := steps_cons h
    rw [List.foldlM_cons]
    obtain same | ⟨stopped, exceeding⟩ := step_limited bound first limit
    · rw [same]
      obtain all | ⟨stopped, exceeding⟩ := ih (nodes_le_of_step bound first) others
      · exact .inl all
      · exact .inr ⟨stopped, fun kept => exceeding (List.forall_mem_cons.1 kept).2⟩
    · rw [stopped]
      refine .inr ⟨rfl, fun kept => ?_⟩
      -- no atom is erased, so the cost does not go down any more
      have grown := cost_le_of_steps (List.forall_mem_cons.1 kept).2 others
      omega

end Expansion

theorem expand_limited {ts us : List Token} (h : expand none ts = .ok us) (limit : Nat) :
    expand (some limit) ts = .ok us ∨ expand (some limit) ts = .error .expansionTooLarge ∧
      ((∀ t ∈ ts, ¬t.Erases) → limit < Expansion.cost us + 1) := by
  obtain ⟨e, steps, rfl⟩ := ok_of_map h
  rw [Expansion.cost_reverse]
  obtain same | ⟨stopped, exceeding⟩ := Expansion.steps_limited (Nat.le_refl _) steps limit
  · exact .inl (by rw [expand, same]; rfl)
  · exact .inr ⟨by rw [expand, stopped]; rfl, exceeding⟩

theorem Expr.width_of_ofTokens {limit : Option Nat} {ts us : List Token} {e : Expr}
    (noFinish : .finish ∉ ts) (expanded : expand limit (ts ++ [.finish]) = .ok us)
    (h : ofTokens us = .ok e) : e.width = Expansion.cost us := by
  obtain ⟨made, steps, rfl⟩ := expand_finish expanded
  have unfinished : ∀ t ∈ made.written, t ≠ .finish :=
    Expansion.forall_mem_of_steps (e := .start) (fun _ same => nomatch same)
      (List.forall_mem_nil _) (fun t member _ same => noFinish (same ▸ member)) steps
  have noFinish' : .finish ∉ made.written.reverse :=
    fun member => unfinished _ (List.mem_reverse.1 member) rfl
  have width := width_of_read noFinish' h
  rw [width, Expansion.cost_append]
  exact Nat.zero_add _

namespace Construction

variable {unanchored : Bool} {m : Automaton}

theorem size_le_of_ofSymbols {c : Construction} {symbols : List Symbol} (built : c.ofSymbols symbols = .ok m) :
    m.size ≤ c.capacity := by
  rw [size_of_ofSymbols built]
  obtain ⟨e, reduced, -⟩ := ofSymbols_eq built
  rw [ofSymbols_eq_ite reduced] at built
  split at built
  case isTrue enough => exact enough
  case isFalse => cases built

theorem ofSymbols_limited {symbols : List Symbol}
    (built : ofSymbols { sizeLimit := none, unanchored } symbols = .ok m) (limit : Nat) :
    ofSymbols { sizeLimit := some limit, unanchored } symbols =
      if m.size ≤ limit then .ok m else .error (.tooManyNodes (limit + 1) limit) := by
  have size := size_of_ofSymbols built
  have fits : m.size ≤ NodeId.maxCount := size_le_of_ofSymbols built
  rw [size] at fits
  obtain ⟨e, reduced, rfl⟩ := ofSymbols_eq built
  have same : count { sizeLimit := some limit, unanchored } symbols =
      count { sizeLimit := none, unanchored } symbols := rfl
  have least : capacity { sizeLimit := some limit, unanchored } = min limit NodeId.maxCount := rfl
  rw [ofSymbols_eq_ite reduced, overflow, same, least, size]
  by_cases enough : count { sizeLimit := none, unanchored } symbols ≤ limit
  · rw [if_pos enough, if_pos (Nat.le_min.2 ⟨enough, fits⟩)]
  · have smaller : min limit NodeId.maxCount = limit := by omega
    rw [smaller, if_neg enough]

theorem ofTokens_limited {ts us : List Token} {e : Expr} (expanded : expand none ts = .ok us)
    (read : Expr.ofTokens us = .ok e) (least : Expansion.cost us < m.size)
    (built : ofSymbols { sizeLimit := none, unanchored } e.symbols = .ok m) (limit : Nat) :
    ofTokens { sizeLimit := some limit, unanchored } ts =
        (if m.size ≤ limit then .ok m else .error (.tooManyNodes (limit + 1) limit)) ∨
      ofTokens { sizeLimit := some limit, unanchored } ts = .error (.tooManyNodes (limit + 1) limit) ∧
        ((∀ t ∈ ts, ¬t.Erases) → limit < m.size) := by
  obtain same | ⟨stopped, exceeding⟩ := expand_limited expanded limit
  · refine .inl ?_
    have read' : Expr.ofQuantified (some limit) ts = .ok e := by
      rw [Expr.ofQuantified_eq, same]
      exact read
    rw [ofTokens_eq, read']
    exact ofSymbols_limited built limit
  · have refused : Expr.ofQuantified (some limit) ts = .error .expansionTooLarge := by
      rw [Expr.ofQuantified_eq, stopped]
      rfl
    refine .inr ⟨by rw [ofTokens_eq, refused]; rfl, fun kept => ?_⟩
    have cost := exceeding kept
    omega

/-- The count of nodes is that of the tokens once quantifiers are written out, which the counter kept
meanwhile agrees with unless an atom is erased. A limit that is met changes nothing. One that is not met is
an error about nodes, whichever step finds out. Only a quantifier that erases its atom can make a pattern
fail although there are nodes enough in the end. -/
theorem node_limit_exact {text : String}
    (built : ofPattern { sizeLimit := none, unanchored } text = .ok m) :
    ∃ ts us, Token.ofPattern text = .ok ts ∧ expand none ts = .ok us ∧
      m.size = Expansion.cost us + (if unanchored then 5 else 1) ∧
      ((∀ t ∈ ts, ¬t.Erases) → ∃ e, ts.foldlM (Expansion.step none) .start = .ok e ∧
        m.size = e.nodes + (if unanchored then 5 else 1)) ∧
      ∀ limit, (∀ m', ofPattern { sizeLimit := some limit, unanchored } text = .ok m' →
          m.size ≤ limit ∧ m' = m) ∧
        ((∀ t ∈ ts, ¬t.Erases) → ofPattern { sizeLimit := some limit, unanchored } text =
          if m.size ≤ limit then .ok m else .error (.tooManyNodes (limit + 1) limit)) := by
  unfold ofPattern at built ⊢
  split at built
  next => cases built
  next ts scanned =>
    rw [ofTokens_eq] at built
    split at built
    next => cases built
    next e made =>
      obtain ⟨plain, rfl, spells⟩ := Token.ofPattern_eq_ok_iff.1 scanned
      rw [Expr.ofQuantified_eq] at made
      obtain ⟨us, expanded, read⟩ := ok_of_bind made
      have width := Expr.width_of_ofTokens (Token.finish_not_mem spells) expanded read
      have size : m.size = Expansion.cost us + (if unanchored then 5 else 1) := by
        rw [ofSymbols_symbols built, Expr.size_automaton, width]
      have least : Expansion.cost us < m.size := by
        rw [size]
        split <;> omega
      refine ⟨plain ++ [.finish], us, scanned, expanded, size, fun kept => ?_, fun limit => ?_⟩
      · obtain ⟨e, steps, rfl⟩ := ok_of_map expanded
        have few : m.size < Counter.greatest :=
          Nat.lt_of_le_of_lt (Nat.le_trans (size_le_of_ofSymbols built) (capacity_le _)) (by decide)
        rw [Expansion.cost_reverse] at size least
        refine ⟨e, steps, ?_⟩
        rw [Expansion.nodes_of_steps kept rfl steps (by omega), size]
      obtain same | ⟨stopped, exceeding⟩ := ofTokens_limited expanded read least built limit
      · rw [same]
        refine ⟨fun m' found => ?_, fun _ => rfl⟩
        split at found
        case isTrue enough =>
          cases found
          exact ⟨enough, rfl⟩
        case isFalse => cases found
      · rw [stopped]
        refine ⟨fun m' found => (nomatch found), fun kept => ?_⟩
        rw [if_neg (Nat.not_le.2 (exceeding kept))]

theorem node_limit_exact_of_class : ∃ m, ofPattern { unanchored := true } "[0-9]\x7b2,3\x7dé" = .ok m ∧
    ∃ ts us, Token.ofPattern "[0-9]\x7b2,3\x7dé" = .ok ts ∧ expand none ts = .ok us ∧
      m.size = Expansion.cost us + 5 ∧
      ((∀ t ∈ ts, ¬t.Erases) → ∃ e, ts.foldlM (Expansion.step none) .start = .ok e ∧ m.size = e.nodes + 5) ∧
      ∀ limit, (∀ m', ofPattern { sizeLimit := some limit, unanchored := true }
          "[0-9]\x7b2,3\x7dé" = .ok m' → m.size ≤ limit ∧ m' = m) ∧
        ((∀ t ∈ ts, ¬t.Erases) →
          ofPattern { sizeLimit := some limit, unanchored := true } "[0-9]\x7b2,3\x7dé" =
            if m.size ≤ limit then .ok m else .error (.tooManyNodes (limit + 1) limit)) := by
  have compiles : (ofPattern { unanchored := true } "[0-9]\x7b2,3\x7dé").isOk = true := by
    decide +kernel
  obtain ⟨m, built⟩ := exists_of_isOk compiles
  exact ⟨m, built, node_limit_exact built⟩

end Construction

end ByteRegex
