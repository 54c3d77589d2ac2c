import ByteRegex.Search.LazyTable

/-! Searches that fill in their table while haystacks are read.

A row can be reached at many places of a haystack, so end anchors stay in its set. They are followed
to decide whether the row accepts, which only matters when the haystack ends there. Start anchors
hold at the first row alone, so the empty haystack has an answer of its own. -/

namespace ByteRegex

def LazyTable.defaultRowLimit : Option Nat :=
  some 2000

/-- An automaton to be searched with a table, and the greatest count of rows. -/
structure LazyMatcher where
  automaton : Automaton
  rowLimit : Option Nat := LazyTable.defaultRowLimit

namespace LazyMatcher

open LazyTable

structure Options where
  rowLimit : Option (Option Nat) := none

namespace Options

def overwrite (o later : Options) : Options where
  rowLimit := later.rowLimit.or o.rowLimit

def matcher (o : Options) (m : Automaton) : LazyMatcher where
  automaton := m
  rowLimit := o.rowLimit.getD defaultRowLimit

end Options

def newTable (d : LazyMatcher) : LazyTable :=
  .ofAutomaton d.automaton

/-- A walker of a table holds no node outside of its stack. -/
def held : Nat := 0

structure Ending where
  accepted : Option Bool
  scratch : NodeSet
  stack : Stack

def hasAccept (m : Automaton) (ids : Array Nat) : Bool :=
  ids.any fun id => m.nodes[id]? == some .accept

/-- Follows the end anchors among the active nodes. -/
def endWith (m : Automaton) (atStart : Bool) (scratch : NodeSet) (stack : Stack) : List Nat → Ending
  | [] => ⟨some (hasAccept m scratch.members), scratch, stack⟩
  | id :: ids =>
    match m.nodes[id]? with
    | none => ⟨none, scratch, stack⟩
    | some .accept => ⟨some true, scratch, stack⟩
    | some (.require .textEnd next) =>
      let walk := m.closure ⟨atStart, some true⟩ held scratch stack next
      if walk.finished then endWith m atStart walk.set walk.stack ids
      else ⟨none, walk.set, walk.stack⟩
    | some _ => endWith m atStart scratch stack ids

def addRow (d : LazyMatcher) (t : LazyTable) (set : List Nat) : Except Failure RowId × LazyTable :=
  match d.rowLimit.filter (· ≤ t.size) with
  | some limit => (.error (.full limit), t)
  | none =>
    match RowId.ofPlace t.cells.size with
    | none => (.error (.full t.size), t)
    | some id =>
      let ending := endWith d.automaton false t.scratch.clear t.stack set
      let t := { t with scratch := ending.scratch, stack := ending.stack }
      match ending.accepted with
      | none => (.error .foreign, t)
      | some accepting =>
        let id := if accepting then id.toAccepting else id
        (.ok id, t.withRow set id)

def rowOfCurrent (d : LazyMatcher) (t : LazyTable) : Except Failure RowId × LazyTable :=
  let set := t.current.ascending
  let t := { t with sortSpace := grow t.sortSpace set.length }
  match t.index[set]? with
  | some id => (.ok id, t)
  | none => d.addRow t set

def computeStart (d : LazyMatcher) (t : LazyTable) : Except Failure (RowId × Bool) × LazyTable :=
  let m := d.automaton
  let walk := m.closure ⟨true, none⟩ held t.current.clear t.stack m.start
  let t := { t with current := walk.set, stack := walk.stack }
  if walk.finished then
    let ending := endWith m true t.scratch.clear t.stack t.current.members.toList
    let t := { t with scratch := ending.scratch, stack := ending.stack }
    match ending.accepted with
    | none => (.error .foreign, t)
    | some accepted =>
      match d.rowOfCurrent t with
      | (.error e, t) => (.error e, t)
      | (.ok id, t) => (.ok (id, accepted), { t with start := some (id, accepted) })
  else (.error .foreign, t)

def start (d : LazyMatcher) (t : LazyTable) : Except Failure (RowId × Bool) × LazyTable :=
  match t.start with
  | some first => (.ok first, t)
  | none => d.computeStart t

def computeNext (d : LazyMatcher) (t : LazyTable) (id : RowId) (b : UInt8) :
    Except Failure RowId × LazyTable :=
  match t.sets[id.row]? with
  | none => (.error .foreign, t)
  | some nodes =>
    let walk := d.automaton.advance (d.automaton.closure ⟨false, none⟩ held) b t.current.clear t.stack nodes
    let t := { t with current := walk.set, stack := walk.stack }
    if walk.finished then
      match d.rowOfCurrent t with
      | (.error e, t) => (.error e, t)
      | (.ok next, t) => (.ok next, t.setCell id b next)
    else (.error .foreign, t)

def next (d : LazyMatcher) (t : LazyTable) (id : RowId) (b : UInt8) :
    Except Failure RowId × LazyTable :=
  match t.cell? id b with
  | none => (.error .foreign, t)
  | some next => if next.isUnknown then d.computeNext t id b else (.ok next, t)

/-- Reads the rest of a haystack. The row of the empty set ends the search. -/
def run (d : LazyMatcher) (t : LazyTable) (id : RowId) : List UInt8 → Except Failure Bool × LazyTable
  | [] => (.ok id.accepting, t)
  | b :: bytes =>
    match d.next t id b with
    | (.error e, t) => (.error e, t)
    | (.ok id, t) => if id.dead then (.ok false, t) else d.run t id bytes

def search (d : LazyMatcher) (t : LazyTable) (haystack : List UInt8) : Except Failure Bool × LazyTable :=
  match d.start t with
  | (.error e, t) => (.error e, t)
  | (.ok (id, accepted), t) =>
    if haystack.isEmpty then (.ok accepted, t) else d.run t id haystack

end LazyMatcher

end ByteRegex
