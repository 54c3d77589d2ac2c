import ByteRegex.Proofs.Layout

/-! How building an automaton ends. The nodes of each symbol are known beforehand, and so is whether
they are too many. Symbols that reduce to one expression fail for no other reason, since every hole is
filled once and none is left. All other symbols are malformed, which building notices unless it runs
out of nodes before. -/

namespace ByteRegex

def Symbol.cost : Symbol → Nat
  | .operand item => item.lead + 1
  | .repetition _ => 1
  | .concat => 0
  | .alternate => 1

def Symbol.costs (symbols : List Symbol) : Nat :=
  symbols.foldr (fun s n => s.cost + n) 0

@[simp] theorem Symbol.costs_cons (s : Symbol) (symbols : List Symbol) :
    costs (s :: symbols) = s.cost + costs symbols := rfl

namespace Construction

/-- The greatest count of nodes that an automaton may have. -/
def capacity (c : Construction) : Nat :=
  match c.sizeLimit with
  | none => NodeId.maxCount
  | some limit => min limit NodeId.maxCount

theorem capacity_le (c : Construction) : c.capacity ≤ NodeId.maxCount := by
  unfold capacity
  split
  · exact Nat.le_refl _
  · exact Nat.min_le_right _ _

theorem capacity_le_limit (c : Construction) {limit : Nat} (limited : c.sizeLimit = some limit) :
    c.capacity ≤ limit := by
  rw [capacity, limited]
  exact Nat.min_le_left _ _

def overflow (c : Construction) : BuildError :=
  .tooManyNodes (c.capacity + 1) c.capacity

def count (c : Construction) (symbols : List Symbol) : Nat :=
  Symbol.costs symbols + if c.unanchored then 5 else 1

/-- How a part of building ends after which there are to be `total` nodes: with a result if so many
are allowed, and else with the error that one is too many. -/
def Settles {α : Type} (c : Construction) (total : Nat) (x : Except BuildError α) : Prop :=
  if total ≤ c.capacity then ∃ a, x = .ok a else x = .error c.overflow

variable {c : Construction} {α β : Type} {x : Except BuildError α}

theorem settles_ok {total : Nat} (a : α) (fits : total ≤ c.capacity) :
    c.Settles total (.ok a : Except BuildError α) := by
  rw [Settles, if_pos fits]
  exact ⟨a, rfl⟩

theorem Settles.bind {f : α → Except BuildError β} {n total : Nat} (first : c.Settles n x)
    (fewer : n ≤ total) (rest : ∀ a, x = .ok a → n ≤ c.capacity → c.Settles total (f a)) :
    c.Settles total (x >>= f) := by
  by_cases fits : n ≤ c.capacity
  · rw [Settles, if_pos fits] at first
    obtain ⟨a, rfl⟩ := first
    exact rest a rfl fits
  · rw [Settles, if_neg fits] at first
    rw [first, Settles, if_neg (by omega)]
    rfl

end Construction

open Construction

variable {c : Construction}

namespace Draft

theorem size_of_toList {d : Draft} {nodes : List (Node (Option Nat))} (h : d.toList = nodes) :
    d.size = nodes.length := by
  rw [← h, Array.length_toList]

theorem size_of_add {limit : Option Nat} {d d' : Draft} {node : Node (Option Nat)}
    (h : d.add limit node = .ok d') : d'.size = d.size + 1 := by
  rw [size_of_toList (toList_of_add h), List.length_append, Array.length_toList]
  rfl

theorem add_of_lt {d : Draft} (node : Node (Option Nat)) (room : d.size < c.capacity) :
    d.add c.sizeLimit node = .ok (d.push node) := by
  have small : d.size ≤ NodeId.greatest := Nat.le_of_lt_succ (Nat.lt_of_lt_of_le room c.capacity_le)
  have allowed : c.sizeLimit.filter (d.size + 1 > ·) = none := by
    rw [Option.filter_eq_none_iff]
    intro limit limited
    have bound := c.capacity_le_limit limited
    rw [decide_eq_true_iff]
    omega
  rw [add, allowed, NodeId.check, if_pos small]

theorem add_of_eq {d : Draft} (node : Node (Option Nat)) (full : d.size = c.capacity) :
    d.add c.sizeLimit node = .error c.overflow := by
  rw [add, NodeId.check, overflow, ← full]
  cases limited : c.sizeLimit with
  | none =>
    have most : d.size = NodeId.maxCount := by rw [full, capacity, limited]
    rw [Option.filter_none, if_neg (by rw [most]; decide), most]
  | some limit =>
    have least : d.size = min limit NodeId.maxCount := by rw [full, capacity, limited]
    by_cases small : limit ≤ NodeId.maxCount
    · rw [Nat.min_eq_left small] at least
      rw [least, Option.filter_some, if_pos (by simp)]
    · rw [Nat.min_eq_right (Nat.le_of_not_le small)] at least
      have allowed : ¬decide (NodeId.maxCount + 1 > limit) = true := by
        rw [decide_eq_true_iff]
        omega
      rw [least, Option.filter_some, if_neg allowed, if_neg (by decide)]

theorem add_settles {d : Draft} (node : Node (Option Nat)) (bound : d.size ≤ c.capacity) :
    c.Settles (d.size + 1) (d.add c.sizeLimit node) := by
  rcases Nat.lt_or_eq_of_le bound with room | full
  · rw [add_of_lt node room]
    exact settles_ok _ room
  · rw [add_of_eq node full, Settles, if_neg (by omega)]

end Draft

namespace Construction

theorem addSingle_settles {d : Draft} (node : Node (Option Nat)) (bound : d.size ≤ c.capacity) :
    c.Settles (d.size + 1) (c.addSingle d node) :=
  (Draft.add_settles node bound).bind (Nat.le_refl _) fun _ _ fits => settles_ok _ fits

theorem addBytes_settles (bytes : List UInt8) {d : Draft} (bound : d.size ≤ c.capacity) :
    c.Settles (d.size + bytes.length) (c.addBytes d bytes) := by
  induction bytes generalizing d with
  | nil => exact settles_ok _ bound
  | cons b bytes ih =>
    refine (Draft.add_settles _ bound).bind (by simp) fun added done fits => ?_
    have size := Draft.size_of_add done
    have others := ih (d := added) (by omega)
    rwa [size, Nat.add_assoc, Nat.add_comm 1] at others

theorem addChain_settles {bytes : List UInt8} (nonempty : bytes ≠ []) {d : Draft}
    (bound : d.size ≤ c.capacity) : c.Settles (d.size + bytes.length) (c.addChain d bytes) := by
  refine (addBytes_settles bytes bound).bind (Nat.le_refl _) fun added done fits => ?_
  obtain ⟨b, bytes, rfl⟩ := List.exists_cons_of_ne_nil nonempty
  obtain ⟨linked, link, -⟩ := Draft.link_eq (addBytes_eq done)
  rw [Array.length_toList] at link
  simp only [List.length_cons, Nat.add_sub_cancel, link]
  exact settles_ok _ fits

theorem addOperand_settles (item : Operand) {d : Draft} (bound : d.size ≤ c.capacity) :
    c.Settles (d.size + (item.lead + 1)) (c.addOperand d item) := by
  cases item with
  | literal char =>
    have chain := addChain_settles (String.utf8EncodeChar_ne_nil (c := char)) bound
    rwa [String.length_utf8EncodeChar, ← Nat.sub_add_cancel char.utf8Size_pos] at chain
  | charClass text | wildcard | anchor place => exact addSingle_settles _ bound

theorem addRepetition_settles (op : Repetition) {body : Expr} {before : List (Node (Option Nat))}
    {d : Draft} (laid : d.toList = before ++ body.layout some before.length none)
    (bound : d.size ≤ c.capacity) : c.Settles (d.size + 1)
      (c.addRepetition d ⟨body.entry before.length, body.holes before.length⟩ op) := by
  refine (Draft.add_settles _ bound).bind (Nat.le_refl _) fun added done fits => ?_
  have nodes := Draft.toList_of_add done
  rw [laid, List.append_assoc] at nodes
  obtain ⟨looped, filled, -⟩ := Draft.fillAll_holes d.size body rfl nodes
  cases op with
  | star | plus =>
    simp only [filled]
    exact settles_ok _ fits
  | option => exact settles_ok _ fits

theorem length_draftOf_cons (e : Expr) (es : List Expr) :
    (draftOf (e :: es)).length = (draftOf es).length + e.width := by
  rw [draftOf, List.length_append, Expr.length_layout]

theorem length_draftOf_reduce {s : Symbol} {es es' : List Expr} (h : s.reduce es = some es') :
    (draftOf es').length = (draftOf es).length + s.cost := by
  cases s with
  | operand item =>
    cases h
    exact length_draftOf_cons _ _
  | repetition op =>
    obtain _ | ⟨body, es⟩ := es
    · cases h
    · cases h
      simp only [length_draftOf_cons, Expr.width, Symbol.cost, Nat.add_assoc]
  | concat | alternate =>
    obtain _ | ⟨right, _ | ⟨left, es⟩⟩ := es
    · cases h
    · cases h
    · cases h
      simp only [length_draftOf_cons, Expr.width, Symbol.cost, Nat.add_assoc, Nat.add_zero]

variable {es es' : List Expr} {d : Draft} {s : Symbol} {symbols : List Symbol}

theorem length_draftOf_foldlM (h : symbols.foldlM Symbol.reduce es = some es') :
    (draftOf es').length = (draftOf es).length + Symbol.costs symbols := by
  induction symbols generalizing es with
  | nil =>
    cases h
    rfl
  | cons s symbols ih =>
    obtain ⟨es₁, first, others⟩ := Option.bind_eq_some_iff.1 h
    rw [ih others, length_draftOf_reduce first, Symbol.costs_cons, Nat.add_assoc]

theorem costs_eq_width {e : Expr} (h : symbols.foldlM Symbol.reduce [] = some [e]) :
    Symbol.costs symbols = e.width := by
  have length := length_draftOf_foldlM h
  rw [length_draftOf_cons, draftOf, List.length_nil, Nat.zero_add, Nat.zero_add] at length
  exact length.symm

theorem step_settles (laid : d.toList = draftOf es) (bound : d.size ≤ c.capacity)
    (reduced : s.reduce es = some es') : c.Settles (d.size + s.cost) (c.step (d, fragmentsOf es) s) := by
  cases s with
  | operand item =>
    exact (addOperand_settles item bound).bind (Nat.le_refl _) fun _ _ fits => settles_ok _ fits
  | repetition op =>
    obtain _ | ⟨body, es⟩ := es
    · cases reduced
    · exact (addRepetition_settles op laid bound).bind (Nat.le_refl _) fun _ _ fits =>
        settles_ok _ fits
  | concat =>
    obtain _ | ⟨right, _ | ⟨left, es⟩⟩ := es
    · cases reduced
    · cases reduced
    · have parts := laid
      rw [draftOf, length_draftOf_cons, draftOf, List.append_assoc] at parts
      obtain ⟨joined, filled, -⟩ :=
        Draft.fillAll_holes (right.entry (draftOf (left :: es)).length) left rfl parts
      simp only [fragmentsOf, step, filled]
      exact settles_ok _ bound
  | alternate =>
    obtain _ | ⟨right, _ | ⟨left, es⟩⟩ := es
    · cases reduced
    · cases reduced
    · exact (Draft.add_settles _ bound).bind (Nat.le_refl _) fun _ _ fits => settles_ok _ fits

theorem step_of_reduce_eq_none (h : s.reduce es = none) :
    c.step (d, fragmentsOf es) s = .error (.malformedSymbols 0) := by
  cases s with
  | operand item => cases h
  | repetition op =>
    obtain _ | ⟨body, es⟩ := es
    · rfl
    · cases h
  | concat | alternate =>
    obtain _ | ⟨right, _ | ⟨left, es⟩⟩ := es
    · rfl
    · rfl
    · cases h

theorem eq_of_step {d' : Draft} {stack : List Fragment} (laid : d.toList = draftOf es)
    (reduced : s.reduce es = some es') (done : c.step (d, fragmentsOf es) s = .ok (d', stack)) :
    d'.toList = draftOf es' ∧ d'.size = d.size + s.cost ∧ stack = fragmentsOf es' := by
  obtain ⟨es₁, reduced', laid', rfl⟩ := step_eq laid done
  cases reduced.symm.trans reduced'
  refine ⟨laid', ?_, rfl⟩
  rw [Draft.size_of_toList laid', length_draftOf_reduce reduced, Draft.size_of_toList laid]

theorem foldlM_step_settles (laid : d.toList = draftOf es) (bound : d.size ≤ c.capacity)
    (reduced : symbols.foldlM Symbol.reduce es = some es') :
    c.Settles (d.size + Symbol.costs symbols) (symbols.foldlM c.step (d, fragmentsOf es)) := by
  induction symbols generalizing d es with
  | nil => exact settles_ok _ bound
  | cons s symbols ih =>
    rw [List.foldlM_cons] at reduced ⊢
    obtain ⟨es₁, first, others⟩ := Option.bind_eq_some_iff.1 reduced
    refine (step_settles laid bound first).bind (by simp) ?_
    rintro ⟨d₁, stack₁⟩ done fits
    obtain ⟨laid₁, size, rfl⟩ := eq_of_step laid first done
    rw [Symbol.costs_cons, ← Nat.add_assoc, ← size]
    exact ih laid₁ (by omega) others

/-- Symbols that do not reduce are noticed, unless they need too many nodes before. -/
theorem foldlM_step_malformed (laid : d.toList = draftOf es) (bound : d.size ≤ c.capacity)
    (malformed : symbols.foldlM Symbol.reduce es = none) :
    symbols.foldlM c.step (d, fragmentsOf es) = .error (.malformedSymbols 0) ∨
      c.capacity < d.size + Symbol.costs symbols ∧
        symbols.foldlM c.step (d, fragmentsOf es) = .error c.overflow := by
  induction symbols generalizing d es with
  | nil => cases malformed
  | cons s symbols ih =>
    rw [List.foldlM_cons] at malformed ⊢
    cases first : s.reduce es with
    | none =>
      rw [step_of_reduce_eq_none first]
      exact .inl rfl
    | some es₁ =>
      rw [first] at malformed
      have step := step_settles laid bound first
      by_cases fits : d.size + s.cost ≤ c.capacity
      · rw [Settles, if_pos fits] at step
        obtain ⟨⟨d₁, stack₁⟩, done⟩ := step
        -- the draft after the symbol is again one of expressions, so the rest can be asked about
        obtain ⟨laid₁, size, rfl⟩ := eq_of_step laid first done
        rw [done, Symbol.costs_cons, ← Nat.add_assoc, ← size]
        exact ih laid₁ (by omega) malformed
      · rw [Settles, if_neg fits] at step
        rw [step]
        refine .inr ⟨?_, rfl⟩
        rw [Symbol.costs_cons]
        omega

theorem addLoop_settles (bound : d.size ≤ c.capacity) : c.Settles (d.size + 2) (c.addLoop d) := by
  refine (Draft.add_settles _ bound).bind (by omega) fun d₁ add₁ fits₁ => ?_
  have size₁ := Draft.size_of_add add₁
  refine (Draft.add_settles _ (by omega)).bind (by omega) fun d₂ add₂ fits₂ => ?_
  obtain ⟨d₃, filled, -⟩ := fill_loop add₁ add₂
  rw [filled]
  exact settles_ok _ (by omega)

theorem surround_settles {e : Expr} (laid : d.toList = e.layout some 0 none)
    (bound : d.size ≤ c.capacity) :
    c.Settles (d.size + 4) (c.surround d ⟨e.entry 0, e.holes 0⟩) := by
  refine (addLoop_settles bound).bind (by omega) fun d₁ loop₁ fits₁ => ?_
  obtain ⟨d₂, entered, laid₂⟩ := fill_before laid loop₁
  have size₂ : d₂.size = d.size + 2 := by
    rw [Draft.size_of_toList laid₂, Draft.size_of_toList laid, List.length_append]
    rfl
  simp only [entered]
  refine (addLoop_settles (by omega)).bind (by omega) fun d₃ loop₂ fits₂ => ?_
  obtain ⟨-, d₄, left, -⟩ := fill_after laid₂ loop₂
  simp only [left]
  exact settles_ok _ (by omega)

theorem complete_settles {body : Fragment} (nodes : List (Node Nat))
    (fills : ∀ added : Draft, added.toList = d.toList ++ [Node.accept] →
      ∃ d', added.fillAll d.size body.holes = .ok d' ∧ d'.toList = nodes.map (Node.map some))
    (bound : d.size ≤ c.capacity) : c.Settles (d.size + 1) (c.complete d body) := by
  refine (Draft.add_settles _ bound).bind (Nat.le_refl _) fun added done fits => ?_
  obtain ⟨d', filled, known⟩ := fills added (Draft.toList_of_add done)
  simp only [filled]
  simp only [bind, Except.bind, Draft.finish_eq known]
  exact settles_ok _ fits

theorem ofSymbols_settles {e : Expr} (reduced : symbols.foldlM Symbol.reduce [] = some [e]) :
    c.Settles (c.count symbols) (c.ofSymbols symbols) := by
  have steps := foldlM_step_settles (c := c) (d := #[]) rfl (Nat.zero_le _) reduced
  rw [Array.size_empty, Nat.zero_add] at steps
  refine steps.bind (Nat.le_add_right _ _) ?_
  rintro ⟨d, stack⟩ done fits
  obtain ⟨es, reduced', laid, rfl⟩ := foldlM_step_eq [] rfl done
  cases reduced.symm.trans reduced'
  have size : d.size = Symbol.costs symbols := by
    rw [Draft.size_of_toList laid, length_draftOf_foldlM reduced]
    exact Nat.zero_add _
  have laid' : d.toList = e.layout some 0 none := laid
  rw [← size] at fits
  rw [count, ← size]
  cases unanchored : c.unanchored with
  | false =>
    simp only [fragmentsOf, Bool.false_eq_true, if_false]
    exact complete_settles _ (fun added parts => fill_anchored laid' parts) fits
  | true =>
    simp only [fragmentsOf, if_true]
    refine (surround_settles laid' fits).bind (by omega) ?_
    rintro ⟨d', body⟩ surrounded fits'
    obtain ⟨laid₂, rfl⟩ := surround_eq laid' surrounded
    have size' : d'.size = d.size + 4 := by
      rw [Draft.size_of_toList laid₂, Draft.size_of_toList laid', List.length_append,
        Expr.length_layout, Expr.length_layout]
      rfl
    rw [← size'] at fits'
    have last : c.Settles (d'.size + 1) (c.complete d' ⟨e.width + 1, [⟨e.width + 3, .second⟩]⟩) :=
      complete_settles _ (fun added parts => fill_surrounded laid₂ parts) fits'
    rw [size'] at last
    exact last

theorem ofSymbols_eq_ite {e : Expr} (reduced : symbols.foldlM Symbol.reduce [] = some [e]) :
    c.ofSymbols symbols =
      if c.count symbols ≤ c.capacity then .ok (e.automaton c.unanchored) else .error c.overflow := by
  have settles : c.Settles (c.count symbols) (c.ofSymbols symbols) := ofSymbols_settles reduced
  split
  case isTrue fits =>
    rw [Settles, if_pos fits] at settles
    obtain ⟨m, built⟩ := settles
    obtain ⟨e', reduced', rfl⟩ := ofSymbols_eq built
    cases reduced.symm.trans reduced'
    exact built
  case isFalse exceeds =>
    rwa [Settles, if_neg exceeds] at settles

theorem length_fragmentsOf (es : List Expr) : (fragmentsOf es).length = es.length := by
  induction es with
  | nil => rfl
  | cons e es ih => rw [fragmentsOf, List.length_cons, List.length_cons, ih]

/-- All other symbols are malformed, which is noticed unless they need too many nodes. The error tells
how many expressions are left, or none if an operator lacks one. -/
theorem ofSymbols_malformed (h : ∀ e, symbols.foldlM Symbol.reduce [] ≠ some [e]) :
    c.ofSymbols symbols =
        .error (.malformedSymbols ((symbols.foldlM Symbol.reduce []).elim 0 List.length)) ∨
      c.capacity < c.count symbols ∧ c.ofSymbols symbols = .error c.overflow := by
  have fewer : Symbol.costs symbols ≤ c.count symbols := Nat.le_add_right _ _
  have start : (#[], []) = ((#[], fragmentsOf []) : Draft × List Fragment) := rfl
  cases reduced : symbols.foldlM Symbol.reduce [] with
  | none =>
    obtain malformed | ⟨exceeds, failed⟩ :=
      foldlM_step_malformed (c := c) (d := #[]) rfl (Nat.zero_le _) reduced
    · rw [ofSymbols, start, malformed]
      exact .inl rfl
    · rw [ofSymbols, start, failed]
      rw [Array.size_empty] at exceeds
      exact .inr ⟨by omega, rfl⟩
  | some es =>
    have steps := foldlM_step_settles (c := c) (d := #[]) rfl (Nat.zero_le _) reduced
    rw [Array.size_empty, Nat.zero_add] at steps
    by_cases fits : Symbol.costs symbols ≤ c.capacity
    · rw [Settles, if_pos fits] at steps
      -- the nodes were added, but there is not exactly one fragment in the end
      obtain ⟨⟨d, stack⟩, done⟩ := steps
      obtain ⟨es', reduced', -, rfl⟩ := foldlM_step_eq [] rfl done
      cases reduced.symm.trans reduced'
      rw [ofSymbols, start, done, Option.elim_some, ← length_fragmentsOf]
      obtain _ | ⟨e, _ | ⟨e', es⟩⟩ := es
      · exact .inl rfl
      · exact absurd reduced (h e)
      · exact .inl rfl
    · rw [Settles, if_neg fits] at steps
      rw [ofSymbols, start, steps]
      exact .inr ⟨by omega, rfl⟩

theorem ofSymbols_outcome (c : Construction) (symbols : List Symbol) :
    (∃ e, symbols.foldlM Symbol.reduce [] = some [e] ∧
        c.ofSymbols symbols = .ok (e.automaton c.unanchored)) ∨
      (∀ e, symbols.foldlM Symbol.reduce [] ≠ some [e]) ∧ c.ofSymbols symbols =
        .error (.malformedSymbols ((symbols.foldlM Symbol.reduce []).elim 0 List.length)) ∨
      c.capacity < c.count symbols ∧ c.ofSymbols symbols = .error c.overflow := by
  by_cases reduces : ∃ e, symbols.foldlM Symbol.reduce [] = some [e]
  · obtain ⟨e, reduced⟩ := reduces
    have result : c.ofSymbols symbols = _ := ofSymbols_eq_ite reduced
    split at result
    case isTrue => exact .inl ⟨e, reduced, result⟩
    case isFalse exceeds => exact .inr (.inr ⟨Nat.lt_of_not_le exceeds, result⟩)
  · have other : ∀ e, symbols.foldlM Symbol.reduce [] ≠ some [e] := not_exists.1 reduces
    obtain malformed | overflow := ofSymbols_malformed (c := c) other
    · exact .inr (.inl ⟨other, malformed⟩)
    · exact .inr (.inr overflow)

end Construction

end ByteRegex
