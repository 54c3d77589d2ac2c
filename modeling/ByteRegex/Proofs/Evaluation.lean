import ByteRegex.Proofs.Parsing

/-! What is read off the written tokens of a tree, as a function of the tree. A row is read as a level
and an atom as one more item of any level. A row from which nothing can be read has no value, and what
follows it, or encloses it, does not matter to that. -/

namespace ByteRegex

def Extent.Value : Extent → Type
  | .atom => Expr
  | .row => Level

def Bounds.copies (b : Bounds) (x : Expr) : List Expr :=
  List.replicate b.least x ++
    match b.most with
    | none => [.repeated .star x]
    | some most => List.replicate (most - b.least) (.repeated .option x)

namespace Level

def pushAll (l : Level) (xs : List Expr) : Level :=
  xs.foldl push l

theorem pushAll_append (l : Level) (xs ys : List Expr) :
    l.pushAll (xs ++ ys) = (l.pushAll xs).pushAll ys :=
  List.foldl_append

end Level

namespace Source

/-- What is read off the written tokens. Nothing is read off an atom that its quantifier erases. -/
def value? : {k : Extent} → Source k → Option k.Value
  | _, operand item => some (Expr.operand item)
  | _, group inside => inside.value?.bind fun l => (Level.close .emptyGroup l).toOption
  | _, empty => some Level.start
  | _, single before a => before.value?.bind fun l => a.value?.map (Level.push l)
  | _, times before a b _ _ => before.value?.bind fun l =>
    if b.most = some 0 then some l else a.value?.map fun x => Level.pushAll l (b.copies x)
  | _, repetition before op => before.value?.bind (Level.repeatLast? op)
  | _, alternation before => before.value?.bind Level.nextBranch?

end Source

/-- Whatever is read after the tokens, and inside whatever levels, the tokens make another level of the
current one, or cannot be read. -/
def Changes (us : List Token) (l : Level) (l' : Option Level) : Prop :=
  ∀ enclosing rest, (Expr.read enclosing l (us ++ rest)).toOption =
    l'.bind fun l' => (Expr.read enclosing l' rest).toOption

/-- The tokens make one more item of any level, or cannot be read. -/
def Adds (us : List Token) (x : Option Expr) : Prop :=
  ∀ l, Changes us l (x.map l.push)

variable {us vs : List Token} {l : Level} {l' : Option Level} {x : Expr}

theorem changes_nil (l : Level) : Changes [] l (some l) :=
  fun _ _ => rfl

theorem Changes.append {f : Level → Option Level} (h : Changes us l l') (h' : ∀ m, Changes vs m (f m)) :
    Changes (us ++ vs) l (l'.bind f) := by
  intro enclosing rest
  rw [List.append_assoc, h, Option.bind_assoc]
  exact Option.bind_congr fun m _ => h' m enclosing rest

theorem changes_repetition (op : Repetition) (l : Level) :
    Changes [.repetition op] l (l.repeatLast? op) := by
  intro enclosing rest
  rw [List.singleton_append, Expr.read]
  cases l.repeatLast? op <;> rfl

theorem changes_alternation (l : Level) : Changes [.alternation] l l.nextBranch? := by
  intro enclosing rest
  rw [List.singleton_append, Expr.read]
  cases l.nextBranch? <;> rfl

theorem adds_operand (item : Operand) : Adds [.operand item] (some (.operand item)) :=
  fun _ _ _ => rfl

theorem Changes.group (h : Changes us .start l') :
    Adds (.groupOpen :: us ++ [.groupClose]) (l'.bind fun l => (l.close .emptyGroup).toOption) := by
  intro outer enclosing rest
  have parts : Token.groupOpen :: us ++ [.groupClose] ++ rest =
      .groupOpen :: (us ++ .groupClose :: rest) := by simp
  rw [parts, Expr.read, h]
  cases l' with
  | none => rfl
  | some inner =>
    simp only [Option.bind_some, Expr.read]
    cases inner.close .emptyGroup <;> rfl

theorem Adds.repetition (h : Adds us (some x)) (op : Repetition) :
    Adds (us ++ [.repetition op]) (some (.repeated op x)) := by
  intro l
  have repeated := (h l).append fun m => changes_repetition op m
  rwa [Option.map_some, Option.bind_some, Level.repeatLast?_push] at repeated

theorem Adds.changes_replicate (h : Adds us (some x)) (n : Nat) (l : Level) :
    Changes (List.replicate n us).flatten l (some (l.pushAll (List.replicate n x))) := by
  induction n generalizing l with
  | zero => exact changes_nil l
  | succ n ih =>
    rw [List.replicate_succ, List.flatten_cons]
    exact (h l).append ih

theorem Adds.changes_unroll (h : Adds us (some x)) (b : Bounds) (l : Level) :
    Changes (b.unroll us) l (some (l.pushAll (b.copies x))) := by
  have least := h.changes_replicate b.least l
  unfold Bounds.unroll Bounds.copies
  rw [Level.pushAll_append]
  cases b.most with
  | none => exact least.append (h.repetition .star)
  | some most => exact least.append fun m => (h.repetition .option).changes_replicate (most - b.least) m

theorem Adds.changes_of_none (h : Adds us none) (l : Level) : Changes (us ++ vs) l none :=
  fun enclosing rest => by rw [List.append_assoc, h l]; rfl

namespace Source

def Evaluated : {k : Extent} → Source k → Prop
  | .atom, a => Adds a.written a.value?
  | .row, s => Changes s.written .start s.value?

end Source

theorem Adds.unroll {a : Option Expr} (h : Adds us a) (b : Bounds) (l : Level) :
    Changes (b.unroll us) l
      (if b.most = some 0 then some l else a.map fun x => l.pushAll (b.copies x)) := by
  split
  case isTrue zero =>
    rw [Phrase.unroll_of_most_zero zero]
    exact changes_nil l
  case isFalse left =>
    cases a with
    | some x => exact h.changes_unroll b l
    | none =>
      obtain ⟨rest, unrolled⟩ := Bounds.exists_unroll_eq left us
      rw [unrolled]
      exact h.changes_of_none l

/-- Reading the written tokens of a tree follows the tree. -/
theorem Source.evaluated {k : Extent} (s : Source k) : s.Evaluated := by
  induction s with
  | operand item => exact adds_operand item
  | group inside ih =>
    have inner : Changes inside.written .start inside.value? := ih
    exact inner.group
  | empty => exact changes_nil .start
  | single before a ihb iha =>
    have earlier : Changes before.written .start before.value? := ihb
    have atom : Adds a.written a.value? := iha
    exact earlier.append atom
  | times before a b bounds denotes ihb iha =>
    have earlier : Changes before.written .start before.value? := ihb
    have atom : Adds a.written a.value? := iha
    exact earlier.append (atom.unroll b)
  | repetition before op ih =>
    have earlier : Changes before.written .start before.value? := ih
    exact earlier.append (changes_repetition op)
  | alternation before ih =>
    have earlier : Changes before.written .start before.value? := ih
    exact earlier.append changes_alternation

end ByteRegex
