import ByteRegex.Matching.Regex
import ByteRegex.Proofs.Conversion
import ByteRegex.Proofs.Outcome
import ByteRegex.Proofs.Unrolling

/-! Why a pattern is refused. Its characters, its tokens and the expression that they make each have
faults of their own, and a limit on nodes may be exceeded. No quantifier is left when tokens are read,
and the symbols of an expression always make an automaton if there are nodes enough, so nobody is ever
told of an internal error. -/

namespace ByteRegex

/-- Whether a pattern can have a fault. Nothing is too large to be written out unless there is a limit
on nodes. -/
def Fault.Proper (limit : Option Nat) : Fault → Prop
  | unexpandedQuantifier => False
  | expansionTooLarge => limit.isSome = true
  | _ => True

theorem Fault.Proper.of_none {fault : Fault} (h : fault.Proper none) (limit : Option Nat) :
    fault.Proper limit := by
  cases fault with
  | expansionTooLarge => cases h
  | _ => exact h

theorem Token.proper_of_scan {offset : Nat} {cs : List Char} {e : PatternError}
    (h : scan offset cs = .error e) : e.fault.Proper none := by
  fun_induction scan offset cs with
  | case1 offset => cases h
  | case3 | case5 | case7 | case9 =>
    rename_i ih
    exact ih (error_of_map h)
  | case2 | case4 | case6 | case8 =>
    cases h
    trivial

namespace Expansion

variable {limit : Option Nat} {ts us atom before inside : List Token} {fault : Fault}

theorem eq_of_splitGroup {depth : Nat} (h : splitGroup depth inside ts = .ok (atom, before)) :
    atom.reverse ++ before = inside.reverse ++ ts := by
  fun_induction splitGroup depth inside ts with
  | case1 => cases h
  | case3 =>
    cases h
    simp
  | case2 | case4 | case5 =>
    rename_i ih
    simpa using ih h

theorem eq_of_splitAtom (h : splitAtom ts = .ok (atom, before)) : ts = atom.reverse ++ before := by
  unfold splitAtom at h
  split at h
  · cases h
    rfl
  · exact (eq_of_splitGroup h).symm
  · cases h

theorem proper_of_splitGroup {depth : Nat} (h : splitGroup depth inside ts = .error fault) :
    fault.Proper none := by
  fun_induction splitGroup depth inside ts with
  | case1 =>
    cases h
    trivial
  | case3 => cases h
  | case2 | case4 | case5 =>
    rename_i ih
    exact ih h

theorem proper_of_splitAtom (h : splitAtom ts = .error fault) : fault.Proper none := by
  unfold splitAtom at h
  split at h
  · cases h
  · exact proper_of_splitGroup h
  · cases h
    trivial

theorem proper_of_ofText {text : String} (h : Bounds.ofText text = .error fault) :
    fault.Proper none := by
  unfold Bounds.ofText at h
  split at h
  · cases h
  · cases h
    trivial

theorem proper_of_step {e : Expansion} {t : Token} (h : step limit e t = .error fault) :
    fault.Proper limit := by
  cases t with
  | quantifier text =>
    simp only [step] at h
    split at h
    · cases h
      trivial
    · obtain unread | ⟨b, -, rest⟩ := error_of_bind h
      · exact (proper_of_ofText unread).of_none limit
      · obtain lacking | ⟨⟨atom, before⟩, -, result⟩ := error_of_bind rest
        · exact (proper_of_splitAtom lacking).of_none limit
        · simp only at result
          split at result
          case isTrue exceeding =>
            cases result
            cases limit with
            | none => cases exceeding
            | some limit => rfl
          case isFalse => cases result
  | operand | repetition | groupOpen | groupClose | alternation | finish => cases h

theorem proper_of_steps {e : Expansion} (h : ts.foldlM (step limit) e = .error fault) :
    fault.Proper limit := by
  induction ts generalizing e with
  | nil => cases h
  | cons t ts ih =>
    rw [List.foldlM_cons] at h
    obtain first | ⟨e', -, others⟩ := error_of_bind h
    · exact proper_of_step first
    · exact ih others

def Plain (ts : List Token) : Prop :=
  ∀ t ∈ ts, t.isQuantifier = false

variable {P : Token → Prop}

theorem forall_mem_unroll (repetitions : ∀ op, P (.repetition op)) (atom : ∀ t ∈ ts, P t) (b : Bounds) :
    ∀ t ∈ b.unroll ts, P t := by
  have copies {us : List Token} (all : ∀ t ∈ us, P t) (n : Nat) :
      ∀ t ∈ (List.replicate n us).flatten, P t := by
    intro t member
    obtain ⟨vs, copy, inside⟩ := List.mem_flatten.1 member
    rw [(List.mem_replicate.1 copy).2] at inside
    exact all t inside
  have repeated (op : Repetition) : ∀ t ∈ ts ++ [.repetition op], P t :=
    List.forall_mem_append.2 ⟨atom, List.forall_mem_singleton.2 (repetitions op)⟩
  refine List.forall_mem_append.2 ⟨copies atom b.least, ?_⟩
  split
  · exact repeated .star
  · exact copies (repeated .option) _

theorem forall_mem_of_step {e e' : Expansion} {t : Token} (repetitions : ∀ op, P (.repetition op))
    (before : ∀ u ∈ e.written, P u) (last : t.isQuantifier = false → P t)
    (h : step limit e t = .ok e') : ∀ u ∈ e'.written, P u := by
  obtain ⟨plain, rfl⟩ | ⟨text, b, atom, rest, -, -, -, split, rfl⟩ := step_cases h
  · exact List.forall_mem_cons.2 ⟨last plain, before⟩
  · rw [eq_of_splitAtom split] at before
    simp only [unroll_written, List.forall_mem_append, List.mem_reverse] at before ⊢
    exact ⟨forall_mem_unroll repetitions before.1 b, before.2⟩

theorem forall_mem_of_steps {e e' : Expansion} (repetitions : ∀ op, P (.repetition op))
    (before : ∀ t ∈ e.written, P t) (read : ∀ t ∈ ts, t.isQuantifier = false → P t)
    (h : ts.foldlM (step limit) e = .ok e') : ∀ t ∈ e'.written, P t := by
  induction ts generalizing e with
  | nil =>
    cases h
    exact before
  | cons t ts ih =>
    obtain ⟨e₁, first, others⟩ := steps_cons h
    rw [List.forall_mem_cons] at read
    exact ih (forall_mem_of_step repetitions before read.1 first) read.2 others

theorem plain_of_expand (h : expand limit ts = .ok us) : Plain us := by
  obtain ⟨e, steps, rfl⟩ := ok_of_map h
  simp only [Plain, List.mem_reverse]
  exact forall_mem_of_steps (fun _ => rfl) (List.forall_mem_nil _) (fun _ _ plain => plain) steps

end Expansion

theorem Level.proper_of_close {l : Level} {ifEmpty fault : Fault}
    (h : l.close ifEmpty = .error fault) (proper : ifEmpty.Proper none) : fault.Proper none := by
  unfold close at h
  split at h
  · cases h
  · cases h
    split
    · exact proper
    · trivial

namespace Expr

theorem proper_of_atEnd {enclosing : List Level} {level : Level} {fault : Fault}
    (h : atEnd enclosing level = .error fault) : fault.Proper none := by
  unfold atEnd at h
  split at h
  · exact level.proper_of_close h trivial
  · cases h
    trivial

theorem proper_of_read {enclosing : List Level} {level : Level} {ts : List Token} {fault : Fault}
    (plain : Expansion.Plain ts) (h : read enclosing level ts = .error fault) : fault.Proper none := by
  induction ts generalizing enclosing level with
  | nil => exact proper_of_atEnd h
  | cons t ts ih =>
    obtain ⟨first, others⟩ := List.forall_mem_cons.1 plain
    cases t with
    | quantifier text => cases first
    | finish => exact proper_of_atEnd h
    | operand item => exact ih others h
    | groupOpen => exact ih others h
    | repetition op =>
      rw [read] at h
      split at h
      · cases h
        trivial
      · exact ih others h
    | groupClose =>
      cases enclosing with
      | nil =>
        cases h
        trivial
      | cons outer enclosing =>
        simp only [read] at h
        split at h
        next empty =>
          cases h
          exact level.proper_of_close empty trivial
        next => exact ih others h
    | alternation =>
      rw [read] at h
      split at h
      · cases h
        trivial
      · exact ih others h

theorem proper_of_ofQuantified {limit : Option Nat} {ts : List Token} {fault : Fault}
    (h : ofQuantified limit ts = .error fault) : fault.Proper limit := by
  rw [ofQuantified_eq] at h
  obtain unwritten | ⟨us, written, unread⟩ := error_of_bind h
  · exact Expansion.proper_of_steps (error_of_map unwritten)
  · exact (proper_of_read (Expansion.plain_of_expand written) unread).of_none limit

end Expr

/-- An error that is not internal and tells exactly one cause, a fault of the pattern or a limit that
it exceeds. -/
structure Explained (pattern : Option PatternError) (limit : Option Nat) (internal : Bool) : Prop where
  external : internal = false
  one_cause : pattern.isSome = !limit.isSome
  proper : ∀ e, pattern = some e → e.fault ≠ .unexpandedQuantifier ∧ e.fault ≠ .expansionTooLarge

def BuildError.Explained (e : BuildError) : Prop :=
  ByteRegex.Explained e.patternError? e.limit? e.isInternal

def CompileError.Explained (e : CompileError) : Prop :=
  ByteRegex.Explained e.patternError? e.limit? e.isInternal

theorem Explained.of_proper {e : PatternError} (h : e.fault.Proper none) :
    Explained (some e) none false := by
  refine ⟨rfl, rfl, fun e' same => ?_⟩
  cases same
  constructor <;> intro fault <;> rw [fault] at h <;> cases h

theorem BuildError.explained_ofFault {limit : Option Nat} {fault : Fault} (h : fault.Proper limit) :
    (ofFault limit fault).Explained := by
  unfold ofFault
  split
  · exact ⟨rfl, rfl, fun _ none => nomatch none⟩
  next other =>
    refine ByteRegex.Explained.of_proper ?_
    cases fault with
    | expansionTooLarge =>
      obtain ⟨n, rfl⟩ := Option.isSome_iff_exists.1 h
      exact absurd rfl (other n rfl)
    | _ => exact h

theorem BuildError.explained_overflow (c : Construction) : c.overflow.Explained :=
  ⟨rfl, rfl, fun _ none => nomatch none⟩

variable {c : Construction}

theorem Construction.explained_of_ofTokens {ts : List Token} {e : BuildError}
    (h : c.ofTokens ts = .error e) : e.Explained := by
  rw [ofTokens_eq] at h
  split at h
  next fault refused =>
    cases h
    exact BuildError.explained_ofFault (Expr.proper_of_ofQuantified refused)
  next x read =>
    rw [ofSymbols_eq_ite (Symbol.reduce_eq_iff.2 rfl)] at h
    split at h
    · cases h
    · cases h
      exact BuildError.explained_overflow c

theorem Construction.explained_of_ofPattern {text : String} {e : BuildError}
    (h : c.ofPattern text = .error e) : e.Explained := by
  unfold ofPattern at h
  split at h
  next e' refused =>
    cases h
    exact .of_proper (Token.proper_of_scan refused)
  next => exact explained_of_ofTokens h

theorem CompiledPattern.explained_of_ofText {text : String} {e : CompileError}
    (h : ofText c text = .error e) : e.Explained := by
  unfold ofText at h
  split at h
  next e' refused =>
    cases h
    exact .of_proper (Token.proper_of_scan refused)
  next =>
    split at h
    next e' refused =>
      cases h
      exact c.explained_of_ofTokens refused
    next => cases h

/-- A pattern is refused for one cause that is told, whoever compiles it and under whatever limit. The
symbols that a conversion gives leave one fragment, and no hole is filled twice or forgotten, so they only
ever fail for want of nodes. -/
theorem refused_for_one_cause :
    (∀ (c : Construction) (text : String) (e : BuildError),
      c.ofPattern text = .error e → e.Explained) ∧
    (∀ (c : Construction) (text : String) (e : CompileError),
      CompiledPattern.ofText c text = .error e → e.Explained) ∧
    (∀ (s : Settings) (text : String) (e : CompileError),
      Regex.ofText s text = .error e → e.Explained) ∧
    ∀ (c : Construction) (limit : Option Nat) (ts : List Token) (symbols : List Symbol),
      Symbol.ofQuantified limit ts = .ok symbols →
      (∀ d stack, symbols.foldlM c.step (#[], []) = .ok (d, stack) → ∃ body, stack = [body]) ∧
      ∃ m, c.ofSymbols symbols = if c.count symbols ≤ c.capacity then .ok m
        else .error (.tooManyNodes (c.capacity + 1) c.capacity) := by
  refine ⟨fun c text e h => c.explained_of_ofPattern h,
    fun c text e h => CompiledPattern.explained_of_ofText h, ?_, ?_⟩
  · intro s text e h
    obtain refused | ⟨pattern, -, made⟩ := error_of_bind h
    · exact CompiledPattern.explained_of_ofText refused
    · cases made
  · intro c limit ts symbols converted
    rw [Symbol.ofQuantified_eq] at converted
    obtain ⟨e, -, rfl⟩ := ok_of_map converted
    have reduced : e.symbols.foldlM Symbol.reduce [] = some [e] := Symbol.reduce_eq_iff.2 rfl
    refine ⟨fun d stack done => ?_, _, Construction.ofSymbols_eq_ite reduced⟩
    obtain ⟨es, reduced', -, rfl⟩ := Construction.foldlM_step_eq [] rfl done
    cases reduced.symm.trans reduced'
    exact ⟨_, rfl⟩

theorem refused_for_one_cause_of_bounds :
    (∃ e, Regex.ofText { nodeLimit := some 3 } "(ab)\x7b9\x7d" = .error e ∧ e.Explained) ∧
    ∃ e, Construction.ofPattern {} "a|*" = .error e ∧ e.Explained := by
  have tooLarge : (Regex.ofText { nodeLimit := some 3 } "(ab)\x7b9\x7d").isOk = false := by
    decide +kernel
  have dangling : (Construction.ofPattern {} "a|*").isOk = false := by decide +kernel
  obtain ⟨e, refused⟩ := exists_of_not_isOk tooLarge
  obtain ⟨e', refused'⟩ := exists_of_not_isOk dangling
  exact ⟨⟨e, refused, refused_for_one_cause.2.2.1 _ _ e refused⟩,
    ⟨e', refused', refused_for_one_cause.1 _ _ e' refused'⟩⟩

end ByteRegex
