import ByteRegex.ByteSet

/-! The text of a character class, read as a set of bytes. Brackets around the text are optional, a
leading `^` complements the class, and the rest is cut into items from the left: `x-y` is a range
when `x` comes before `y`, and any other character stands for itself. -/

namespace ByteRegex

inductive ClassItem
  | single (c : Char)
  | range (lo hi : Char)
  deriving DecidableEq

namespace ClassItem

/-- Cuts a text into items, each as long as it can be. -/
def cut : List Char → List ClassItem
  | lo :: '-' :: hi :: rest =>
    if lo < hi then range lo hi :: cut rest else single lo :: cut ('-' :: hi :: rest)
  | c :: rest => single c :: cut rest
  | [] => []

end ClassItem

namespace ByteSet

def ascii? (c : Char) : Option UInt8 :=
  if c.toNat < 128 then some (UInt8.ofNat c.toNat) else none

/-- Adds the ASCII part of an item. A range that leaves ASCII is cut off at its last byte. -/
def addItem (s : ByteSet) : ClassItem → ByteSet
  | .single c =>
    match ascii? c with
    | some b => s.add b
    | none => s
  | .range lo hi =>
    match ascii? lo with
    | some b => s.addRange b ((ascii? hi).getD 0x7f)
    | none => s

/-- Drops the brackets of a class if both are there. -/
def unbracket (text : List Char) : List Char :=
  match text with
  | '[' :: rest => if rest.getLast? = some ']' then rest.dropLast else text
  | _ => text

def ofItems (items : List ClassItem) (negated : Bool) : ByteSet :=
  items.foldl addItem ⟨0, negated⟩

def ofClassText (text : String) : ByteSet :=
  match unbracket text.toList with
  | '^' :: rest => ofItems (ClassItem.cut rest) true
  | rest => ofItems (ClassItem.cut rest) false

theorem negated_addItem (s : ByteSet) (item : ClassItem) : (s.addItem item).negated = s.negated := by
  cases item <;> simp only [addItem] <;> split <;> rfl

theorem negated_ofItems (items : List ClassItem) (negated : Bool) :
    (ofItems items negated).negated = negated := by
  suffices ∀ s : ByteSet, (items.foldl addItem s).negated = s.negated from this ⟨0, negated⟩
  induction items with
  | nil => intro s; rfl
  | cons item items ih => intro s; rw [List.foldl_cons, ih, negated_addItem]

end ByteSet

end ByteRegex
