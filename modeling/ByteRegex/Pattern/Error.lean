/-! What can be wrong with a pattern. Only reading its characters knows an offset, which counts
bytes. Every later step sees tokens and reports the fault alone. -/

namespace ByteRegex

theorem ok_of_bind {ε α β : Type} {x : Except ε α} {f : α → Except ε β} {b : β}
    (h : x >>= f = .ok b) : ∃ a, x = .ok a ∧ f a = .ok b := by
  cases x with
  | error e => cases h
  | ok a => exact ⟨a, rfl, h⟩

theorem ok_of_map {ε α β : Type} {f : α → β} {x : Except ε α} {b : β} (h : x.map f = .ok b) :
    ∃ a, x = .ok a ∧ f a = b := by
  cases x with
  | error e => cases h
  | ok a => exact ⟨a, rfl, Except.ok.inj h⟩

theorem error_of_bind {ε α β : Type} {x : Except ε α} {f : α → Except ε β} {e : ε}
    (h : x >>= f = .error e) : x = .error e ∨ ∃ a, x = .ok a ∧ f a = .error e := by
  cases x with
  | error e' => exact .inl (congrArg _ (Except.error.inj h))
  | ok a => exact .inr ⟨a, rfl, h⟩

theorem error_of_map {ε α β : Type} {f : α → β} {x : Except ε α} {e : ε}
    (h : x.map f = .error e) : x = .error e := by
  cases x with
  | error e' => exact congrArg _ (Except.error.inj h)
  | ok a => cases h

theorem ok_of_toOption {ε α : Type} {x : Except ε α} {a : α} (h : x.toOption = some a) : x = .ok a := by
  cases x with
  | error e => cases h
  | ok a' => exact congrArg _ (Option.some.inj h)

theorem exists_of_isOk {ε α : Type} {x : Except ε α} (h : x.isOk = true) : ∃ a, x = .ok a := by
  cases x with
  | error e => cases h
  | ok a => exact ⟨a, rfl⟩

theorem exists_of_not_isOk {ε α : Type} {x : Except ε α} (h : x.isOk = false) : ∃ e, x = .error e := by
  cases x with
  | error e => exact ⟨e, rfl⟩
  | ok a => cases h

inductive Fault
  | emptyPattern
  | malformedQuantifier
  | danglingOperator
  | emptyGroup
  | emptyAlternation
  | unclosedClass
  | trailingEscape
  | unbalancedGroup
  | unexpandedQuantifier
  | expansionTooLarge
  deriving DecidableEq

structure PatternError where
  fault : Fault
  offset : Option Nat
  deriving DecidableEq

def Fault.message : Fault → String
  | emptyPattern => "empty pattern"
  | malformedQuantifier => "malformed repetition quantifier"
  | danglingOperator => "repetition operator is missing an expression to repeat"
  | emptyGroup => "empty group"
  | emptyAlternation => "empty alternation branch"
  | unclosedClass => "unclosed character class"
  | trailingEscape => "incomplete escape sequence"
  | unbalancedGroup => "unbalanced parentheses"
  | unexpandedQuantifier => "bounded quantifier was not expanded before conversion"
  | expansionTooLarge => "bounded repetition exceeds the NFA size limit"

namespace PatternError

def ofFault (fault : Fault) : PatternError :=
  ⟨fault, none⟩

def message (e : PatternError) : String :=
  match e.offset with
  | none => e.fault.message
  | some n => e.fault.message ++ " at offset " ++ toString n

end PatternError

end ByteRegex
