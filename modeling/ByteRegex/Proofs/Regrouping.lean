import ByteRegex.Proofs.Evaluation

/-! Parentheses around an atom and its bounds. They matter to a repetition that follows, because the
bounds are written out as copies and a repetition without parentheses is that of the last copy alone. They
do not matter if nothing has to be there, since then the last copy stands for any number of copies, and
not if the atom stands alone. -/

namespace ByteRegex

open Relation

def Repetition.chain (haystack : List UInt8) (ops : List Repetition) (body : Nat → Nat → Prop) :
    Nat → Nat → Prop :=
  ops.foldl (fun body op => op.Spans haystack body) body

def Reflexive (haystack : List UInt8) (body : Nat → Nat → Prop) : Prop :=
  ∀ i, i ≤ haystack.length → body i i

variable {haystack : List UInt8} {body other : Nat → Nat → Prop}

namespace Repetition

theorem reflexive_star : Reflexive haystack (star.Spans haystack body) :=
  fun _ bound => ⟨.refl, bound⟩

theorem star_mono (h : ∀ i j, body i j → other i j) (i j : Nat)
    (span : star.Spans haystack body i j) : star.Spans haystack other i j :=
  ⟨ReflTransGen.mono h i j span.1, span.2⟩

theorem star_star : star.Spans haystack (star.Spans haystack body) = star.Spans haystack body := by
  ext i j
  constructor
  · rintro ⟨run, bound⟩
    refine ⟨?_, bound⟩
    have steps : ReflTransGen (ReflTransGen body) i j :=
      ReflTransGen.mono (fun _ _ span => span.1) i j run
    rwa [reflTransGen_eq_self] at steps
  · intro span
    exact ⟨.single span, span.2⟩

theorem option_of_reflexive (h : Reflexive haystack body) : option.Spans haystack body = body := by
  ext i j
  constructor
  · rintro (⟨rfl, bound⟩ | span)
    · exact h i bound
    · exact span
  · exact .inr

theorem plus_of_reflexive (within : Within haystack body) (h : Reflexive haystack body) :
    plus.Spans haystack body = star.Spans haystack body := by
  ext i j
  constructor
  · intro run
    have bound := within.repetition .plus i j run
    exact ⟨run.to_reflTransGen, Nat.le_trans bound.1 bound.2⟩
  · rintro ⟨run, bound⟩
    exact .head' (h i bound) run

theorem chain_of_reflexive (within : Within haystack body) (h : Reflexive haystack body)
    (ops : List Repetition) : chain haystack ops body =
      if ops.all (· == .option) then body else star.Spans haystack body := by
  induction ops generalizing body with
  | nil => rfl
  | cons op ops ih =>
    have looped : chain haystack ops (star.Spans haystack body) = star.Spans haystack body := by
      rw [ih (within.repetition .star) reflexive_star, star_star, ite_self]
    rw [chain, List.foldl_cons]
    cases op with
    | option =>
      rw [option_of_reflexive h]
      exact ih within h
    | star => exact looped
    | plus =>
      rw [plus_of_reflexive within h]
      exact looped

end Repetition

theorem Reflexive.compositions (h : Reflexive haystack body) (n : Nat) :
    Reflexive haystack (compositions haystack body n) := by
  induction n with
  | zero => exact fun i bound => ⟨rfl, bound⟩
  | succ n ih => exact fun i bound => ⟨i, h i bound, ih i bound⟩

theorem compositions_one (within : Within haystack body) : compositions haystack body 1 = body :=
  comp_still within

/-- Where every copy may be nothing, repeating the last one repeats all of them. -/
theorem comp_chain_of_reflexive (within : Within haystack body) (h : Reflexive haystack body) (k : Nat)
    (ops : List Repetition) :
    Comp (compositions haystack body k) (Repetition.chain haystack ops body) =
      Repetition.chain haystack ops (compositions haystack body (k + 1)) := by
  have all : Comp (compositions haystack body k) body = compositions haystack body (k + 1) := by
    rw [← comp_compositions within, compositions_one within]
  rw [Repetition.chain_of_reflexive within h,
    Repetition.chain_of_reflexive (within.compositions (k + 1)) (h.compositions (k + 1))]
  split
  next => exact all
  next =>
    ext i j
    constructor
    · rintro ⟨l, copies, rest⟩
      obtain ⟨n, spans⟩ := (spans_star_iff within).1 rest
      have bound := within.compositions k i l copies
      -- a copy is all of them, the others being empty
      refine Repetition.star_mono (fun i' j' span => ?_) i j
        ((spans_star_iff within).2 ⟨k + n, ?_⟩)
      · rw [← all]
        exact ⟨i', h.compositions k i' (Nat.le_trans (within i' j' span).1 (within i' j' span).2), span⟩
      · rw [← comp_compositions within]
        exact ⟨l, copies, spans⟩
    · intro span
      refine ⟨i, h.compositions k i span.2, ?_⟩
      rw [← Repetition.star_star]
      exact Repetition.star_mono (fun i' j' copies => (spans_star_iff within).2 ⟨k + 1, copies⟩) i j span

namespace Expr

def repeatedBy (ops : List Repetition) (x : Expr) : Expr :=
  ops.foldl (fun x op => .repeated op x) x

theorem spans_repeatedBy (ops : List Repetition) (x : Expr) :
    (x.repeatedBy ops).Spans haystack = Repetition.chain haystack ops (x.Spans haystack) := by
  induction ops generalizing x with
  | nil => rfl
  | cons op ops ih => exact ih (.repeated op x)

def Alike (x y : Expr) : Prop :=
  ∀ haystack, x.Spans haystack = y.Spans haystack

end Expr

namespace Branch

def repeatedBy (ops : List Repetition) : Branch → Branch
  | empty => empty
  | single last => single (last.repeatedBy ops)
  | joined before last => joined before (last.repeatedBy ops)

/-- Whether two branches have the same spans, whatever repetitions follow. -/
def Alike (b b' : Branch) : Prop :=
  ∀ haystack ops, (b.repeatedBy ops).Spans haystack = (b'.repeatedBy ops).Spans haystack

variable {b b' : Branch}

theorem repeatedBy_nil (b : Branch) : b.repeatedBy [] = b := by
  cases b <;> rfl

theorem Alike.spans (h : b.Alike b') (haystack : List UInt8) :
    b.Spans haystack = b'.Spans haystack := by
  have same := h haystack []
  rwa [repeatedBy_nil, repeatedBy_nil] at same

theorem spans_repeatedBy_push (ops : List Repetition) (b : Branch) (x : Expr) :
    ((b.push x).repeatedBy ops).Spans haystack =
      Comp (b.Spans haystack) (Repetition.chain haystack ops (x.Spans haystack)) := by
  have last : (b.push x).repeatedBy ops = b.push (x.repeatedBy ops) := by cases b <;> rfl
  rw [last, spans_push, x.spans_repeatedBy]

theorem Alike.push (h : b.Alike b') {x x' : Expr} (h' : x.Alike x') : (b.push x).Alike (b'.push x') := by
  intro haystack ops
  rw [spans_repeatedBy_push, spans_repeatedBy_push, h.spans, h']

theorem repeatedBy_of_repeatLast? {op : Repetition} {m : Branch} (h : b.repeatLast? op = some m)
    (ops : List Repetition) : m.repeatedBy ops = b.repeatedBy (op :: ops) := by
  cases b with
  | empty => cases h
  | single last | joined before last =>
    cases h
    rfl

theorem spans_foldl_replicate (n : Nat) (b : Branch) (x : Expr) :
    ((List.replicate n x).foldl push b).Spans haystack =
      Comp (b.Spans haystack) (compositions haystack (x.Spans haystack) n) := by
  induction n generalizing b with
  | zero => exact (comp_still b.within_spans).symm
  | succ n ih => rw [List.replicate_succ, List.foldl_cons, ih, spans_push, comp_assoc]; rfl

theorem alike_replicate {x y : Expr} {k : Nat} (h : b.Alike b')
    (reflexive : ∀ haystack, Reflexive haystack (x.Spans haystack))
    (together : ∀ haystack, y.Spans haystack = compositions haystack (x.Spans haystack) (k + 1)) :
    ((List.replicate (k + 1) x).foldl push b).Alike (b'.push y) := by
  intro haystack ops
  rw [List.replicate_succ', List.foldl_append, List.foldl_cons, List.foldl_nil,
    spans_repeatedBy_push, spans_repeatedBy_push, spans_foldl_replicate, comp_assoc,
    comp_chain_of_reflexive x.within_spans (reflexive haystack), together, h.spans]

end Branch

namespace Level

structure Alike (l l' : Level) : Prop where
  branches : ∀ haystack i j,
    (∃ e ∈ l.branches, e.Spans haystack i j) ↔ ∃ e ∈ l'.branches, e.Spans haystack i j
  branch : l.branch.Alike l'.branch

variable {l l' m m' : Level}

theorem Alike.push (h : l.Alike l') {x x' : Expr} (h' : x.Alike x') : (l.push x).Alike (l'.push x') :=
  ⟨h.branches, h.branch.push h'⟩

theorem Alike.repeatLast? {op : Repetition} (h : l.Alike l') (repeated : l.repeatLast? op = some m)
    (repeated' : l'.repeatLast? op = some m') : m.Alike m' := by
  obtain ⟨b, last, rfl⟩ := Option.map_eq_some_iff.1 repeated
  obtain ⟨b', last', rfl⟩ := Option.map_eq_some_iff.1 repeated'
  refine ⟨h.branches, fun haystack ops => ?_⟩
  simp only [Branch.repeatedBy_of_repeatLast? last, Branch.repeatedBy_of_repeatLast? last']
  exact h.branch haystack (op :: ops)

theorem Alike.spans (h : l.Alike l') (haystack : List UInt8) (i j : Nat) :
    l.Spans haystack i j ↔ l'.Spans haystack i j :=
  or_congr (h.branches haystack i j) (by rw [h.branch.spans])

theorem Alike.nextBranch? (h : l.Alike l') (ended : l.nextBranch? = some m)
    (ended' : l'.nextBranch? = some m') : m.Alike m' := by
  refine ⟨fun haystack i j => ?_, ?_⟩
  · rw [spans_of_nextBranch? ended, spans_of_nextBranch? ended', h.spans]
  · rw [(branch_of_nextBranch? ended).2, (branch_of_nextBranch? ended').2]
    exact fun _ _ => rfl

theorem Alike.close (h : l.Alike l') {fault fault' : Fault} {e e' : Expr} (closed : l.close fault = .ok e)
    (closed' : l'.close fault' = .ok e') : e.Alike e' := by
  intro haystack
  ext i j
  rw [spans_of_close closed, spans_of_close closed', h.spans]

theorem branches_pushAll (l : Level) (xs : List Expr) : (l.pushAll xs).branches = l.branches := by
  induction xs generalizing l with
  | nil => rfl
  | cons x xs ih => exact ih (l.push x)

theorem branch_pushAll (l : Level) (xs : List Expr) :
    (l.pushAll xs).branch = xs.foldl Branch.push l.branch := by
  induction xs generalizing l with
  | nil => rfl
  | cons x xs ih => exact ih (l.push x)

theorem Alike.pushAll_replicate (h : l.Alike l') {x x' : Expr} (h' : x.Alike x') (n : Nat) :
    (l.pushAll (List.replicate n x)).Alike (l'.pushAll (List.replicate n x')) := by
  induction n generalizing l l' with
  | zero => exact h
  | succ n ih => exact ih (h.push h')

end Level

theorem Expr.Alike.repeated {x x' : Expr} (h : x.Alike x') (op : Repetition) :
    (repeated op x).Alike (repeated op x') := by
  intro haystack
  rw [Spans, Spans, h]

theorem Level.Alike.pushAll_copies {l l' : Level} (h : l.Alike l') {x x' : Expr} (h' : x.Alike x')
    (b : Bounds) : (l.pushAll (b.copies x)).Alike (l'.pushAll (b.copies x')) := by
  have least := h.pushAll_replicate h' b.least
  unfold Bounds.copies
  rw [Level.pushAll_append, Level.pushAll_append]
  cases b.most with
  | none => exact least.push (h'.repeated .star)
  | some most => exact least.pushAll_replicate (h'.repeated .option) (most - b.least)

/-- Bounds that let nothing be there, or that ask for the atom once. -/
def Bounds.Indifferent (b : Bounds) : Prop :=
  b.least = 0 ∨ b.most = some 1

theorem Bounds.copies_of_indifferent {b : Bounds} (h : b.Indifferent) (some : b.most ≠ some 0) :
    (∃ f : Expr → Expr, (∀ x, b.copies x = [f x]) ∧ ∀ x x', x.Alike x' → (f x).Alike (f x')) ∨
      ∃ k, ∀ x, b.copies x = List.replicate (k + 1) (.repeated .option x) := by
  obtain ⟨least, most, ordered⟩ := b
  cases most with
  | none =>
    obtain rfl | never := h
    · exact .inl ⟨.repeated .star, fun x => rfl, fun x x' same => same.repeated .star⟩
    · cases never
  | some most =>
    cases least with
    | zero =>
      cases most with
      | zero => exact absurd rfl some
      | succ k => exact .inr ⟨k, fun x => rfl⟩
    | succ least =>
      obtain never | once := h
      · cases never
      · cases once
        have one := ordered 1 rfl
        obtain rfl : least = 0 := by omega
        exact .inl ⟨id, fun x => rfl, fun x x' same => same⟩

theorem Level.Alike.regroup {l l' : Level} (h : l.Alike l') {x x' g : Expr} (h' : x.Alike x') {b : Bounds}
    (indifferent : b.Indifferent) (some : b.most ≠ some 0) {fault : Fault}
    (closed : (Level.start.pushAll (b.copies x')).close fault = .ok g) :
    (l.pushAll (b.copies x)).Alike (l'.push g) := by
  obtain ⟨f, single, congr⟩ | ⟨k, copies⟩ := Bounds.copies_of_indifferent indifferent some
  · rw [single] at closed ⊢
    cases closed
    exact h.push (congr x x' h')
  · rw [copies] at closed ⊢
    refine ⟨fun haystack i j => by rw [branches_pushAll]; exact h.branches haystack i j, ?_⟩
    rw [branch_pushAll]
    refine Branch.alike_replicate h.branch (fun haystack i bound => .inl ⟨rfl, bound⟩) fun haystack => ?_
    have within : Within haystack
        (compositions haystack ((Expr.repeated .option x').Spans haystack) (k + 1)) :=
      (Expr.within_spans _).compositions (k + 1)
    rw [spans_of_close closed, h'.repeated .option haystack, ← still_comp within]
    ext i j
    rw [Level.Spans, branches_pushAll, branch_pushAll, Branch.spans_foldl_replicate]
    simp [Level.start, Branch.Spans]

theorem Bounds.exists_copies {b : Bounds} (h : ¬b.Indifferent) (x : Expr) :
    ∃ y rest, b.copies x = x :: y :: rest := by
  obtain ⟨least, most, ordered⟩ := b
  cases least with
  | zero => exact absurd (.inl rfl) h
  | succ least =>
    have others : ∀ ys : List Expr, ys ≠ [] → ∃ y rest, x :: ys = x :: y :: rest := by
      intro ys some
      obtain ⟨y, rest, rfl⟩ := List.exists_cons_of_ne_nil some
      exact ⟨y, rest, rfl⟩
    refine others (List.replicate least x ++ _) fun none => ?_
    obtain ⟨copies, tail⟩ := List.append_eq_nil_iff.1 none
    have last : least = 0 := by simpa using copies
    subst last
    cases most with
    | none => cases tail
    | some most =>
      have bound := ordered most rfl
      have fewer : most - 1 = 0 := by simpa using tail
      obtain rfl : most = 1 := by omega
      exact h (.inr rfl)

def Branch.BeginsWith (x : Expr) (b : Branch) : Prop :=
  ∃ before last, b = joined before last ∧
    ∀ haystack i j, before.Spans haystack i j → ∃ k, x.Spans haystack i k

namespace Branch.BeginsWith

variable {x : Expr} {b m : Branch}

theorem push (h : b.BeginsWith x) (y : Expr) : (b.push y).BeginsWith x := by
  obtain ⟨before, last, rfl, begins⟩ := h
  refine ⟨.concat before last, y, rfl, ?_⟩
  rintro haystack i j ⟨k, first, -⟩
  exact begins haystack i k first

theorem pushAll (h : b.BeginsWith x) (ys : List Expr) : (ys.foldl Branch.push b).BeginsWith x := by
  induction ys generalizing b with
  | nil => exact h
  | cons y ys ih => exact ih (h.push y)

theorem repeatLast? (h : b.BeginsWith x) {op : Repetition} (repeated : b.repeatLast? op = some m) :
    m.BeginsWith x := by
  obtain ⟨before, last, rfl, begins⟩ := h
  cases repeated
  exact ⟨before, .repeated op last, rfl, begins⟩

theorem exists_span (h : b.BeginsWith x) {i j : Nat} (span : b.Spans haystack i j) :
    ∃ k, x.Spans haystack i k := by
  obtain ⟨before, last, rfl, begins⟩ := h
  obtain ⟨k, first, -⟩ := span
  exact begins haystack i k first

end Branch.BeginsWith

namespace Source

/-- Trees that differ in parentheses only, around atoms with indifferent bounds. -/
inductive Regrouped : {k : Extent} → Source k → Source k → Prop
  | operand (item : Operand) : Regrouped (operand item) (operand item)
  | group {inside inside' : Source .row} (h : Regrouped inside inside') :
      Regrouped (group inside) (group inside')
  | empty : Regrouped empty empty
  | single {before before' : Source .row} {a a' : Source .atom} (h : Regrouped before before')
      (ha : Regrouped a a') : Regrouped (single before a) (single before' a')
  | times {before before' : Source .row} {a a' : Source .atom} {b : Bounds} {bounds bounds' : List Char}
      {denotes : b.Denotes bounds} {denotes' : b.Denotes bounds'} (h : Regrouped before before')
      (ha : Regrouped a a') : Regrouped (times before a b bounds denotes) (times before' a' b bounds' denotes')
  | repetition {before before' : Source .row} (op : Repetition) (h : Regrouped before before') :
      Regrouped (repetition before op) (repetition before' op)
  | alternation {before before' : Source .row} (h : Regrouped before before') :
      Regrouped (alternation before) (alternation before')
  | regroup {before before' : Source .row} {a a' : Source .atom} {b : Bounds} {bounds bounds' : List Char}
      {denotes : b.Denotes bounds} {denotes' : b.Denotes bounds'} (indifferent : b.Indifferent)
      (h : Regrouped before before') (ha : Regrouped a a') :
      Regrouped (times before a b bounds denotes)
        (single before' (.group (times .empty a' b bounds' denotes')))

def AlikeValues : {k : Extent} → k.Value → k.Value → Prop
  | .atom => Expr.Alike
  | .row => Level.Alike

/-- Trees that differ in parentheses only are read alike, if both can be read. -/
theorem Regrouped.alike {k : Extent} {s s' : Source k} (h : s.Regrouped s') {v v' : k.Value}
    (read : s.value? = some v) (read' : s'.value? = some v') : AlikeValues v v' := by
  induction h with
  | operand item =>
    cases read
    cases read'
    exact fun haystack => rfl
  | group h ih =>
    obtain ⟨l, inner, closed⟩ := Option.bind_eq_some_iff.1 read
    obtain ⟨l', inner', closed'⟩ := Option.bind_eq_some_iff.1 read'
    have same : l.Alike l' := ih inner inner'
    exact same.close (ok_of_toOption closed) (ok_of_toOption closed')
  | empty =>
    cases read
    cases read'
    exact ⟨fun _ _ _ => .rfl, fun _ _ => rfl⟩
  | single h ha ih iha =>
    obtain ⟨l, earlier, pushed⟩ := Option.bind_eq_some_iff.1 read
    obtain ⟨l', earlier', pushed'⟩ := Option.bind_eq_some_iff.1 read'
    obtain ⟨x, atom, rfl⟩ := Option.map_eq_some_iff.1 pushed
    obtain ⟨x', atom', rfl⟩ := Option.map_eq_some_iff.1 pushed'
    have same : l.Alike l' := ih earlier earlier'
    exact same.push (iha atom atom')
  | @times _ _ _ _ b _ _ _ _ h ha ih iha =>
    obtain ⟨l, earlier, copied⟩ := Option.bind_eq_some_iff.1 read
    obtain ⟨l', earlier', copied'⟩ := Option.bind_eq_some_iff.1 read'
    have same : l.Alike l' := ih earlier earlier'
    by_cases erased : b.most = some 0
    · rw [if_pos erased] at copied copied'
      cases copied
      cases copied'
      exact same
    · rw [if_neg erased] at copied copied'
      obtain ⟨x, atom, rfl⟩ := Option.map_eq_some_iff.1 copied
      obtain ⟨x', atom', rfl⟩ := Option.map_eq_some_iff.1 copied'
      exact same.pushAll_copies (iha atom atom') b
  | repetition op h ih =>
    obtain ⟨l, earlier, repeated⟩ := Option.bind_eq_some_iff.1 read
    obtain ⟨l', earlier', repeated'⟩ := Option.bind_eq_some_iff.1 read'
    have same : l.Alike l' := ih earlier earlier'
    exact same.repeatLast? repeated repeated'
  | alternation h ih =>
    obtain ⟨l, earlier, ended⟩ := Option.bind_eq_some_iff.1 read
    obtain ⟨l', earlier', ended'⟩ := Option.bind_eq_some_iff.1 read'
    have same : l.Alike l' := ih earlier earlier'
    exact same.nextBranch? ended ended'
  | @regroup _ _ _ _ b _ _ _ _ indifferent h ha ih iha =>
    obtain ⟨l, earlier, copied⟩ := Option.bind_eq_some_iff.1 read
    obtain ⟨l', earlier', pushed'⟩ := Option.bind_eq_some_iff.1 read'
    obtain ⟨g, group, rfl⟩ := Option.map_eq_some_iff.1 pushed'
    obtain ⟨inner, within, closed⟩ := Option.bind_eq_some_iff.1 group
    obtain ⟨_, opened, copied'⟩ := Option.bind_eq_some_iff.1 within
    cases opened
    have same : l.Alike l' := ih earlier earlier'
    by_cases erased : b.most = some 0
    -- a group of nothing could not be read
    · rw [if_pos erased] at copied'
      cases copied'
      cases closed
    · rw [if_neg erased] at copied copied'
      obtain ⟨x, atom, rfl⟩ := Option.map_eq_some_iff.1 copied
      obtain ⟨x', atom', rfl⟩ := Option.map_eq_some_iff.1 copied'
      exact same.regroup (iha atom atom') indifferent erased (ok_of_toOption closed)

variable {b : Bounds} {bounds : List Char} {denotes : b.Denotes bounds} {op : Repetition} {a : Source .atom}
  {l : Level}

theorem exists_span_of_repeated (other : ¬b.Indifferent)
    (read : ((times empty a b bounds denotes).repetition op |>.repetition .option).value? = some l) :
    ∃ x : Expr, a.value? = some x ∧
      ∀ haystack i j, l.Spans haystack i j → ∃ k, x.Spans haystack i k := by
  obtain ⟨l₁, inner, repeated₂⟩ := Option.bind_eq_some_iff.1 read
  obtain ⟨l₀, copied, repeated₁⟩ := Option.bind_eq_some_iff.1 inner
  obtain ⟨_, opened, copies⟩ := Option.bind_eq_some_iff.1 copied
  cases opened
  have some : b.most ≠ some 0 := fun zero => other (.inl (Nat.le_zero.1 (b.ordered 0 zero)))
  rw [if_neg some] at copies
  obtain ⟨x, item, rfl⟩ := Option.map_eq_some_iff.1 copies
  obtain ⟨y, rest, unrolled⟩ := Bounds.exists_copies other x
  obtain ⟨b₁, last₁, rfl⟩ := Option.map_eq_some_iff.1 repeated₁
  obtain ⟨b₂, last₂, rfl⟩ := Option.map_eq_some_iff.1 repeated₂
  refine ⟨x, item, fun haystack i j span => ?_⟩
  rw [unrolled] at last₁ span
  -- the operators change the last copy, and the first one is another
  have begins : (Branch.joined x y).BeginsWith x := ⟨x, y, rfl, fun _ _ j first => ⟨j, first⟩⟩
  have copiesBegin := begins.pushAll rest
  rw [Level.branch_pushAll] at last₁
  have repeatedBegin := (copiesBegin.repeatLast? last₁).repeatLast? last₂
  obtain ⟨e, member, -⟩ | last := span
  · rw [Level.branches_pushAll] at member
    cases member
  · exact repeatedBegin.exists_span last

theorem reflexive_of_option {fault : Fault} {e : Expr}
    (read : ((single empty a).repetition op |>.repetition .option).value? = some l)
    (closed : l.close fault = .ok e) (haystack : List UInt8) : Reflexive haystack (e.Spans haystack) := by
  obtain ⟨l₁, inner, repeated₂⟩ := Option.bind_eq_some_iff.1 read
  obtain ⟨l₀, pushed, repeated₁⟩ := Option.bind_eq_some_iff.1 inner
  obtain ⟨_, opened, added⟩ := Option.bind_eq_some_iff.1 pushed
  cases opened
  obtain ⟨x, item, rfl⟩ := Option.map_eq_some_iff.1 added
  rw [Level.repeatLast?_push] at repeated₁
  cases repeated₁
  rw [Level.repeatLast?_push] at repeated₂
  cases repeated₂
  cases closed
  exact fun i bound => .inl ⟨rfl, bound⟩

end Source

end ByteRegex
