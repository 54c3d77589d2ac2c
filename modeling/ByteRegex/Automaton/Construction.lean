import ByteRegex.Automaton.Draft
import ByteRegex.ByteSet.ClassText
import ByteRegex.Pattern.Conversion
import ByteRegex.Pattern.Scan

/-! Automata built from the symbols of an expression. Each operand becomes a fragment, a part of the
automaton with one entry and some holes, and each operator joins the latest fragments. The holes of
the last fragment lead to the accepting node.

An automaton accepts the haystacks that the expression matches as a whole. An unanchored one reads
any bytes before and after, and so accepts the haystacks that contain a match. -/

namespace ByteRegex

/-- How an automaton is built: the greatest count of nodes, and whether a match may be surrounded by
other bytes. -/
structure Construction where
  sizeLimit : Option Nat := none
  unanchored : Bool := false
  deriving DecidableEq

namespace Construction

/-- What may be asked for. Of options that are given one after the other, the last counts. -/
structure Options where
  sizeLimit : Option (Option Nat) := none
  unanchored : Option Bool := none

namespace Options

def overwrite (o later : Options) : Options where
  sizeLimit := later.sizeLimit.or o.sizeLimit
  unanchored := later.unanchored.or o.unanchored

def construction (o : Options) : Construction where
  sizeLimit := o.sizeLimit.getD none
  unanchored := o.unanchored.getD false

end Options

end Construction

structure Fragment where
  entry : Nat
  holes : List Hole

namespace Construction

def addSingle (c : Construction) (d : Draft) (node : Node (Option Nat)) :
    Except BuildError (Draft × Fragment) := do
  let entry := d.size
  let d ← d.add c.sizeLimit node
  return (d, ⟨entry, [⟨entry, .first⟩]⟩)

def addBytes (c : Construction) (d : Draft) (bytes : List UInt8) : Except BuildError Draft :=
  bytes.foldlM (fun d b => d.add c.sizeLimit (.consume (.byte b) none)) d

def addChain (c : Construction) (d : Draft) (bytes : List UInt8) : Except BuildError (Draft × Fragment) := do
  let entry := d.size
  let d ← c.addBytes d bytes
  let d ← d.link entry (bytes.length - 1)
  return (d, ⟨entry, [⟨entry + (bytes.length - 1), .first⟩]⟩)

def wildcardSet : ByteSet :=
  (ByteSet.empty.add 0x0a).setNegated true

def addOperand (c : Construction) (d : Draft) : Operand → Except BuildError (Draft × Fragment)
  | .literal char => c.addChain d (String.utf8EncodeChar char)
  | .charClass text => c.addSingle d (.consume (.set (.ofClassText text)) none)
  | .wildcard => c.addSingle d (.consume (.set wildcardSet) none)
  | .anchor place => c.addSingle d (.require place none)

/-- Adds the split that repeats a fragment. A star is entered at the split, and a plus at the body
that leads there. -/
def addRepetition (c : Construction) (d : Draft) (body : Fragment) (op : Repetition) :
    Except BuildError (Draft × Fragment) := do
  let split := d.size
  let d ← d.add c.sizeLimit (.split (some body.entry) none)
  match op with
  | .star => return (← d.fillAll split body.holes, ⟨split, [⟨split, .second⟩]⟩)
  | .plus => return (← d.fillAll split body.holes, ⟨body.entry, [⟨split, .second⟩]⟩)
  | .option => return (d, ⟨split, body.holes ++ [⟨split, .second⟩]⟩)

/-- Handles one symbol. The fragments that are not joined yet come latest first. -/
def step (c : Construction) : Draft × List Fragment → Symbol → Except BuildError (Draft × List Fragment)
  | (d, stack), .operand item => do
    let (d, fragment) ← c.addOperand d item
    return (d, fragment :: stack)
  | (d, body :: stack), .repetition op => do
    let (d, fragment) ← c.addRepetition d body op
    return (d, fragment :: stack)
  | (d, right :: left :: stack), .concat => do
    return (← d.fillAll right.entry left.holes, ⟨left.entry, right.holes⟩ :: stack)
  | (d, right :: left :: stack), .alternate => do
    let split := d.size
    let d ← d.add c.sizeLimit (.split (some left.entry) (some right.entry))
    return (d, ⟨split, left.holes ++ right.holes⟩ :: stack)
  | (_, _), _ => .error (.malformedSymbols 0)

def addLoop (c : Construction) (d : Draft) : Except BuildError Draft := do
  let any := d.size
  let d ← d.add c.sizeLimit (.consume (.set .any) none)
  let d ← d.add c.sizeLimit (.split (some any) none)
  d.fill (any + 1) ⟨any, .first⟩

/-- Surrounds a fragment with loops that read any byte. -/
def surround (c : Construction) (d : Draft) (body : Fragment) : Except BuildError (Draft × Fragment) := do
  let before := d.size
  let d ← c.addLoop d
  let d ← d.fill body.entry ⟨before + 1, .second⟩
  let after := d.size
  let d ← c.addLoop d
  let d ← d.fillAll (after + 1) body.holes
  return (d, ⟨before + 1, [⟨after + 1, .second⟩]⟩)

def complete (c : Construction) (d : Draft) (body : Fragment) : Except BuildError Automaton := do
  let accept := d.size
  let d ← d.add c.sizeLimit .accept
  let d ← d.fillAll accept body.holes
  return ⟨← d.finish, body.entry, accept⟩

def ofSymbols (c : Construction) (symbols : List Symbol) : Except BuildError Automaton := do
  let (d, stack) ← symbols.foldlM c.step (#[], [])
  match stack with
  | [body] =>
    if c.unanchored then
      let (d, body) ← c.surround d body
      c.complete d body
    else c.complete d body
  | _ => .error (.malformedSymbols stack.length)

def ofTokens (c : Construction) (ts : List Token) : Except BuildError Automaton :=
  match Symbol.ofQuantified c.sizeLimit ts with
  | .error fault => .error (.ofFault c.sizeLimit fault)
  | .ok symbols => c.ofSymbols symbols

def ofPattern (c : Construction) (pattern : String) : Except BuildError Automaton :=
  match Token.ofPattern pattern with
  | .error e => .error (.pattern e)
  | .ok ts => c.ofTokens ts

end Construction

end ByteRegex
