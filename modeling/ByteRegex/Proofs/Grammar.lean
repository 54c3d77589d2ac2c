import ByteRegex.Proofs.Reading

/-! The grammar of tokens without quantifiers, with the expression that each part makes. Levels hold
what was derived from the tokens read so far, so an expression that is read is derived. Conversely, the
tokens of a derivation are read at any level and before any other tokens. -/

namespace ByteRegex

/-- What tokens without quantifiers make. An operator belongs to the item before it, concatenation
associates to the left and alternation to the right, and a group leaves no trace. -/
inductive Derives : Rank → List Token → Expr → Prop
  | operand (item : Operand) : Derives .item [.operand item] (.operand item)
  | group {us : List Token} {e : Expr} (inside : Derives .pattern us e) :
      Derives .item (.groupOpen :: us ++ [.groupClose]) e
  | once {us : List Token} {e : Expr} (x : Derives .item us e) : Derives .factor us e
  | repeated {us : List Token} {e : Expr} (x : Derives .factor us e) (op : Repetition) :
      Derives .factor (us ++ [.repetition op]) (.repeated op e)
  | first {us : List Token} {e : Expr} (x : Derives .factor us e) : Derives .branch us e
  | next {us vs : List Token} {e f : Expr} (before : Derives .branch us e) (x : Derives .factor vs f) :
      Derives .branch (us ++ vs) (.concat e f)
  | last {us : List Token} {e : Expr} (x : Derives .branch us e) : Derives .pattern us e
  | either {us vs : List Token} {e f : Expr} (x : Derives .branch us e) (others : Derives .pattern vs f) :
      Derives .pattern (us ++ .alternation :: vs) (.alternate e f)

variable {us vs : List Token} {e : Expr}

namespace Branch

def Derived : Branch → List Token → Prop
  | empty, us => us = []
  | single last, us => Derives .factor us last
  | joined before last, us =>
    ∃ vs ws, us = vs ++ ws ∧ Derives .branch vs before ∧ Derives .factor ws last

variable {b b' : Branch}

theorem Derived.push (h : b.Derived us) (x : Derives .factor vs e) : (b.push e).Derived (us ++ vs) := by
  cases b with
  | empty =>
    cases h
    exact x
  | single last => exact ⟨us, vs, rfl, .first h, x⟩
  | joined before last =>
    obtain ⟨us₁, us₂, rfl, first, second⟩ := h
    exact ⟨us₁ ++ us₂, vs, rfl, .next first second, x⟩

theorem Derived.repeatLast (h : b.Derived us) {op : Repetition} (found : b.repeatLast? op = some b') :
    b'.Derived (us ++ [.repetition op]) := by
  cases b with
  | empty => cases found
  | single last =>
    cases found
    exact .repeated h op
  | joined before last =>
    cases found
    obtain ⟨us₁, us₂, rfl, first, second⟩ := h
    exact ⟨us₁, _, List.append_assoc _ _ _, first, .repeated second op⟩

theorem Derived.expr (h : b.Derived us) (found : b.expr? = some e) : Derives .branch us e := by
  cases b with
  | empty => cases found
  | single last =>
    cases found
    exact .first h
  | joined before last =>
    cases found
    obtain ⟨us₁, us₂, rfl, first, second⟩ := h
    exact .next first second

end Branch

namespace Level

def BranchesDerived : List Expr → List Token → Prop
  | [], us => us = []
  | e :: es, us =>
    ∃ vs ws, us = vs ++ (ws ++ [.alternation]) ∧ BranchesDerived es vs ∧ Derives .branch ws e

def Derived (l : Level) (us : List Token) : Prop :=
  ∃ vs ws, us = vs ++ ws ∧ BranchesDerived l.branches vs ∧ l.branch.Derived ws

/-- Whether a level inside others, innermost first, was read off some tokens. -/
def DerivedIn : List Level → Level → List Token → Prop
  | [], l, us => l.Derived us
  | outer :: enclosing, l, us =>
    ∃ vs ws, us = vs ++ .groupOpen :: ws ∧ DerivedIn enclosing outer vs ∧ l.Derived ws

variable {l l' outer : Level} {enclosing : List Level} {ifEmpty : Fault}

theorem derived_start : start.Derived [] :=
  ⟨[], [], rfl, rfl, rfl⟩

theorem Derived.push (h : l.Derived us) (x : Derives .factor vs e) : (l.push e).Derived (us ++ vs) := by
  obtain ⟨us₁, us₂, rfl, ended, current⟩ := h
  exact ⟨us₁, us₂ ++ vs, List.append_assoc _ _ _, ended, current.push x⟩

theorem Derived.repeatLast (h : l.Derived us) {op : Repetition} (found : l.repeatLast? op = some l') :
    l'.Derived (us ++ [.repetition op]) := by
  obtain ⟨us₁, us₂, rfl, ended, current⟩ := h
  obtain ⟨b, repeated, rfl⟩ := Option.map_eq_some_iff.1 found
  exact ⟨us₁, _, List.append_assoc _ _ _, ended, current.repeatLast repeated⟩

theorem Derived.nextBranch (h : l.Derived us) (found : l.nextBranch? = some l') :
    l'.Derived (us ++ [.alternation]) := by
  obtain ⟨us₁, us₂, rfl, ended, current⟩ := h
  obtain ⟨e, read, rfl⟩ := Option.map_eq_some_iff.1 found
  refine ⟨us₁ ++ (us₂ ++ [.alternation]), [], by simp, ?_, rfl⟩
  exact ⟨us₁, us₂, rfl, ended, current.expr read⟩

theorem BranchesDerived.join {es : List Expr} (h : BranchesDerived es us) (last : Derives .pattern vs e) :
    Derives .pattern (us ++ vs) (es.foldl (fun right left => .alternate left right) e) := by
  induction es generalizing us vs e with
  | nil =>
    cases h
    exact last
  | cons e' es ih =>
    obtain ⟨us₁, us₂, rfl, ended, latest⟩ := h
    have joined := ih ended (.either latest last)
    simpa using joined

theorem Derived.close (h : l.Derived us) (closed : l.close ifEmpty = .ok e) : Derives .pattern us e := by
  obtain ⟨us₁, us₂, rfl, ended, current⟩ := h
  unfold Level.close at closed
  split at closed
  next last read =>
    cases closed
    exact ended.join (.last (current.expr read))
  next => cases closed

theorem DerivedIn.append (h : DerivedIn enclosing l us)
    (grows : ∀ ws, l.Derived ws → l'.Derived (ws ++ vs)) : DerivedIn enclosing l' (us ++ vs) := by
  cases enclosing with
  | nil => exact grows us h
  | cons outer enclosing =>
    obtain ⟨us₁, us₂, rfl, around, inside⟩ := h
    exact ⟨us₁, us₂ ++ vs, by simp, around, grows us₂ inside⟩

theorem DerivedIn.opens (h : DerivedIn enclosing l us) :
    DerivedIn (l :: enclosing) start (us ++ [.groupOpen]) :=
  ⟨us, [], rfl, h, derived_start⟩

theorem DerivedIn.close (h : DerivedIn (outer :: enclosing) l us) (closed : l.close ifEmpty = .ok e) :
    DerivedIn enclosing (outer.push e) (us ++ [.groupClose]) := by
  obtain ⟨us₁, us₂, rfl, around, inside⟩ := h
  have group : Derives .factor (.groupOpen :: us₂ ++ [.groupClose]) e := .once (.group (inside.close closed))
  have pushed := around.append fun ws read => read.push group
  simpa using pushed

end Level

def Rank.Begins : Rank → Level → Prop
  | .item | .factor => fun _ => True
  | .piece | .branch | .pattern => fun l => l.branch = .empty

def Rank.Yields (e : Expr) : Rank → Level → Level → Prop
  | .item | .factor => fun l l' => l' = l.push e
  | .piece | .branch => fun l l' => l'.branches = l.branches ∧ l'.branch.expr? = some e
  | .pattern => fun l l' => ∀ ifEmpty, l'.close ifEmpty =
    .ok (l.branches.foldl (fun right left => .alternate left right) e)

theorem Branch.expr?_push {b : Branch} (h : b.expr? = some e) (f : Expr) :
    (b.push f).expr? = some (.concat e f) := by
  cases b with
  | empty => cases h
  | single last =>
    cases h
    rfl
  | joined before last =>
    cases h
    rfl

theorem Derives.reads {k : Rank} (d : Derives k us e) (enclosing : List Level) {l : Level}
    (begins : k.Begins l) : ∃ l', k.Yields e l l' ∧
      ∀ rest, Expr.read enclosing l (us ++ rest) = Expr.read enclosing l' rest := by
  -- the level is left open: what a part adds does not depend on what was read before
  induction d generalizing enclosing l with
  | operand item => exact ⟨_, rfl, fun rest => rfl⟩
  | @group us e _ ih =>
    obtain ⟨l', closes, through⟩ := ih (l :: enclosing) (l := .start) rfl
    refine ⟨_, rfl, fun rest => ?_⟩
    have parts : Token.groupOpen :: us ++ [.groupClose] ++ rest =
        .groupOpen :: (us ++ .groupClose :: rest) := by simp
    rw [parts, Expr.read, through, Expr.read, closes .emptyGroup]
    rfl
  | once _ ih => exact ih enclosing begins
  | repeated _ op ih =>
    obtain ⟨_, rfl, through⟩ := ih enclosing begins
    refine ⟨_, rfl, fun rest => ?_⟩
    rw [List.append_assoc, through, List.singleton_append, Expr.read, Level.repeatLast?_push]
  | @first us e _ ih =>
    obtain ⟨_, rfl, through⟩ := ih enclosing trivial
    refine ⟨l.push e, ⟨rfl, ?_⟩, through⟩
    obtain ⟨branches, branch⟩ := l
    cases begins
    rfl
  | @next us vs e f _ _ ihb ihx =>
    obtain ⟨l₁, ⟨same, read⟩, through₁⟩ := ihb enclosing begins
    obtain ⟨_, rfl, through₂⟩ := ihx enclosing (l := l₁) trivial
    refine ⟨l₁.push f, ⟨same, Branch.expr?_push read f⟩, fun rest => ?_⟩
    rw [List.append_assoc, through₁, through₂]
  | last _ ih =>
    obtain ⟨l', ⟨same, read⟩, through⟩ := ih enclosing begins
    refine ⟨l', fun ifEmpty => ?_, through⟩
    simp only [Level.close, read, same]
  | @either us vs e f _ _ ihx iho =>
    obtain ⟨l₁, ⟨same, read⟩, through₁⟩ := ihx enclosing begins
    obtain ⟨l₂, closes, through₂⟩ := iho enclosing (l := ⟨e :: l₁.branches, .empty⟩) rfl
    refine ⟨l₂, fun ifEmpty => ?_, fun rest => ?_⟩
    · rw [closes ifEmpty, same]
      rfl
    · have separated : l₁.nextBranch? = some ⟨e :: l₁.branches, .empty⟩ := by
        rw [Level.nextBranch?, read]
        rfl
      rw [List.append_assoc, through₁, List.cons_append, Expr.read, separated]
      exact through₂ rest

end ByteRegex
