import ByteRegex.Automaton.Construction
import ByteRegex.Pattern.Expr

/-! The automaton of an expression, written down node by node. The nodes of an expression have
consecutive numbers, those of its parts come first, and what they lead to outside of the expression
is one exit. A draft is such a list of nodes in which the exit is not known yet, so building an
automaton comes down to reducing its symbols to one expression. -/

namespace ByteRegex

namespace Node

def map {τ σ : Type} (f : τ → σ) : Node τ → Node σ
  | consume label next => consume label (f next)
  | split first second => split (f first) (f second)
  | require anchor next => require anchor (f next)
  | accept => accept

@[simp] theorem finish?_map_some (n : Node Nat) : finish? (n.map some) = some n := by
  cases n <;> rfl

end Node

section
variable {τ : Type} (known : Nat → τ)

def chain : List UInt8 → Nat → List (Node τ)
  | [], _ => []
  | b :: bytes, lo => .consume (.byte b) (known (lo + 1)) :: chain bytes (lo + 1)

theorem length_chain (bytes : List UInt8) (lo : Nat) : (chain known bytes lo).length = bytes.length := by
  induction bytes generalizing lo with
  | nil => rfl
  | cons b bytes ih => rw [chain, List.length_cons, List.length_cons, ih]

namespace Operand

def front (lo : Nat) : Operand → List (Node τ)
  | literal c => chain known (String.utf8EncodeChar c).dropLast lo
  | _ => []

def final (exit : τ) : Operand → Node τ
  | literal c => .consume (.byte ((String.utf8EncodeChar c).getLastD 0)) exit
  | charClass text => .consume (.set (.ofClassText text)) exit
  | wildcard => .consume (.set Construction.wildcardSet) exit
  | anchor place => .require place exit

def lead : Operand → Nat
  | literal c => c.utf8Size - 1
  | _ => 0

theorem length_front (item : Operand) (lo : Nat) : (item.front known lo).length = item.lead := by
  cases item with
  | literal c =>
    rw [front, length_chain, List.length_dropLast, String.length_utf8EncodeChar, lead]
  | charClass text | wildcard | anchor place => rfl

end Operand

namespace Expr

def width : Expr → Nat
  | operand item => item.lead + 1
  | repeated _ body => body.width + 1
  | concat left right => left.width + right.width
  | alternate left right => left.width + right.width + 1

def entry (lo : Nat) : Expr → Nat
  | operand _ => lo
  | repeated .plus body => body.entry lo
  | repeated _ body => lo + body.width
  | concat left _ => left.entry lo
  | alternate left right => lo + left.width + right.width

def loopExit (split exit : τ) : Repetition → τ
  | .option => exit
  | _ => split

/-- The nodes of an expression, from the number `lo` on, when it leads to `exit`. -/
def layout : Expr → Nat → τ → List (Node τ)
  | operand item, lo, exit => item.front known lo ++ [item.final exit]
  | repeated op body, lo, exit =>
    body.layout lo (loopExit (known (lo + body.width)) exit op) ++
      [.split (known (body.entry lo)) exit]
  | concat left right, lo, exit =>
    left.layout lo (known (right.entry (lo + left.width))) ++ right.layout (lo + left.width) exit
  | alternate left right, lo, exit =>
    left.layout lo exit ++ right.layout (lo + left.width) exit ++
      [.split (known (left.entry lo)) (known (right.entry (lo + left.width)))]

/-- The targets in the nodes of an expression that are its exit. -/
def holes (lo : Nat) : Expr → List Hole
  | operand item => [⟨lo + item.lead, .first⟩]
  | repeated .option body => body.holes lo ++ [⟨lo + body.width, .second⟩]
  | repeated _ body => [⟨lo + body.width, .second⟩]
  | concat left right => right.holes (lo + left.width)
  | alternate left right => left.holes lo ++ right.holes (lo + left.width)

@[simp] theorem length_layout (e : Expr) (lo : Nat) (exit : τ) :
    (e.layout known lo exit).length = e.width := by
  induction e generalizing lo exit with
  | operand item => simp [layout, width, Operand.length_front]
  | repeated op body ih => simp [layout, width, ih]
  | concat left right ihl ihr => simp [layout, width, ihl, ihr]
  | alternate left right ihl ihr => simp [layout, width, ihl, ihr, Nat.add_assoc]

end Expr

theorem map_chain {σ : Type} (f : τ → σ) (bytes : List UInt8) (lo : Nat) :
    (chain known bytes lo).map (Node.map f) = chain (fun n => f (known n)) bytes lo := by
  induction bytes generalizing lo with
  | nil => rfl
  | cons b bytes ih => rw [chain, List.map_cons, ih]; rfl

theorem Expr.map_layout {σ : Type} (f : τ → σ) (e : Expr) (lo : Nat) (exit : τ) :
    (e.layout known lo exit).map (Node.map f) = e.layout (fun n => f (known n)) lo (f exit) := by
  induction e generalizing lo exit with
  | operand item =>
    rw [layout, List.map_append]
    cases item with
    | literal c => rw [Operand.front, map_chain]; rfl
    | charClass text | wildcard | anchor place => rfl
  | repeated op body ih =>
    rw [layout, List.map_append, ih]
    cases op <;> rfl
  | concat left right ihl ihr =>
    rw [layout, List.map_append, ihl, ihr]
    rfl
  | alternate left right ihl ihr =>
    rw [layout, List.map_append, List.map_append, ihl, ihr]
    rfl

end

namespace Draft

theorem toList_of_add {limit : Option Nat} {d d' : Draft} {node : Node (Option Nat)}
    (h : d.add limit node = .ok d') : d'.toList = d.toList ++ [node] := by
  unfold add at h
  split at h
  · cases h
  · split at h
    · cases h
    · cases h
      exact Array.toList_push

theorem fill_at (target : Nat) {lo : Nat} {d : Draft} {before after : List (Node (Option Nat))}
    {node filled : Node (Option Nat)} (exit : Exit) (place : before.length = lo)
    (parts : d.toList = before ++ node :: after) (fills : node.fill? target exit = some filled) :
    ∃ d', d.fill target ⟨lo, exit⟩ = .ok d' ∧ d'.toList = before ++ filled :: after := by
  have found : d[lo]? = some node := by
    rw [← Array.getElem?_toList, parts, ← place]
    simp
  refine ⟨d.set! lo filled, ?_, ?_⟩
  · simp only [fill, found, Option.bind_some, fills]
  · simp [Array.set!_eq_setIfInBounds, parts, ← place]

theorem fillAll_singleton (target : Nat) (d : Draft) (hole : Hole) :
    d.fillAll target [hole] = d.fill target hole := by
  simp [fillAll]

theorem link_eq {bytes : List UInt8} {b : UInt8} {before : List (Node (Option Nat))} {d : Draft}
    (parts : d.toList = before ++ (b :: bytes).map fun b => .consume (.byte b) none) :
    ∃ d', d.link before.length bytes.length = .ok d' ∧ d'.toList = before ++
      (chain some (b :: bytes).dropLast before.length ++
        [.consume (.byte ((b :: bytes).getLastD 0)) none]) := by
  induction bytes generalizing b before d with
  | nil => exact ⟨d, rfl, parts⟩
  | cons b' bytes ih =>
    obtain ⟨d₁, filled, nodes⟩ := fill_at (before.length + 1) .first rfl parts rfl
    rw [List.append_cons] at nodes
    obtain ⟨d', linked, result⟩ := ih nodes
    rw [List.length_append] at linked result
    refine ⟨d', ?_, ?_⟩
    · rw [List.length_cons, link, filled]
      exact linked
    · rw [result]
      simp [chain]

theorem fillAll_append {target : Nat} {d d' : Draft} {first second : List Hole}
    (done : d.fillAll target first = .ok d') :
    d.fillAll target (first ++ second) = d'.fillAll target second := by
  rw [fillAll, List.foldlM_append]
  rw [fillAll] at done
  rw [done]
  rfl

/-- Filling the holes of an expression gives it its exit and changes nothing else. -/
theorem fillAll_holes (target : Nat) (e : Expr) {lo : Nat} {d : Draft}
    {before after : List (Node (Option Nat))} (place : before.length = lo)
    (parts : d.toList = before ++ (e.layout some lo none ++ after)) :
    ∃ d', d.fillAll target (e.holes lo) = .ok d' ∧
      d'.toList = before ++ (e.layout some lo (some target) ++ after) := by
  induction e generalizing lo d before after with
  | operand item =>
    have lastPlace : (before ++ item.front some lo).length = lo + item.lead := by
      rw [List.length_append, Operand.length_front, place]
    have fills : (item.final none).fill? target .first = some (item.final (some target)) := by
      cases item <;> rfl
    have parts' : d.toList = (before ++ item.front some lo) ++ item.final none :: after := by
      simpa [Expr.layout] using parts
    obtain ⟨d', done, result⟩ := fill_at target .first lastPlace parts' fills
    exact ⟨d', (fillAll_singleton ..).trans done, by simpa [Expr.layout] using result⟩
  | repeated op body ih =>
    cases op with
    | star | plus =>
      have splitPlace : (before ++ body.layout some lo (some (lo + body.width))).length =
          lo + body.width := by simp [place]
      have parts' : d.toList = (before ++ body.layout some lo (some (lo + body.width))) ++
          .split (some (body.entry lo)) none :: after := by
        simpa [Expr.layout, Expr.loopExit] using parts
      obtain ⟨d', done, result⟩ := fill_at target .second splitPlace parts' rfl
      exact ⟨d', (fillAll_singleton ..).trans done,
        by simpa [Expr.layout, Expr.loopExit] using result⟩
    | option =>
      have parts' : d.toList = before ++ (body.layout some lo none ++
          .split (some (body.entry lo)) none :: after) := by
        simpa [Expr.layout, Expr.loopExit] using parts
      obtain ⟨d₁, done₁, result₁⟩ := ih place parts'
      have splitPlace : (before ++ body.layout some lo (some target)).length = lo + body.width := by
        simp [place]
      rw [← List.append_assoc] at result₁
      obtain ⟨d₂, done₂, result₂⟩ := fill_at target .second splitPlace result₁ rfl
      refine ⟨d₂, ?_, by simpa [Expr.layout, Expr.loopExit] using result₂⟩
      rw [Expr.holes, fillAll_append done₁, fillAll_singleton, done₂]
  | concat left right ihl ihr =>
    have rightPlace : (before ++ left.layout some lo (some (right.entry (lo + left.width)))).length =
        lo + left.width := by simp [place]
    obtain ⟨d', done, result⟩ := ihr rightPlace (by simpa [Expr.layout] using parts)
    exact ⟨d', done, by simpa [Expr.layout] using result⟩
  | alternate left right ihl ihr =>
    -- the holes of the first branch are filled by then, and its nodes stand before the second
    obtain ⟨d₁, done₁, result₁⟩ := ihl place (by simpa [Expr.layout] using parts)
    have rightPlace : (before ++ left.layout some lo (some target)).length = lo + left.width := by
      simp [place]
    rw [← List.append_assoc] at result₁
    obtain ⟨d₂, done₂, result₂⟩ := ihr rightPlace result₁
    refine ⟨d₂, ?_, by simpa [Expr.layout] using result₂⟩
    rw [Expr.holes, fillAll_append done₁, done₂]

end Draft

/-- The expressions that are left, latest first, once a symbol has joined the latest ones. -/
def Symbol.reduce : List Expr → Symbol → Option (List Expr)
  | es, .operand item => some (.operand item :: es)
  | body :: es, .repetition op => some (.repeated op body :: es)
  | right :: left :: es, .concat => some (.concat left right :: es)
  | right :: left :: es, .alternate => some (.alternate left right :: es)
  | _, _ => none

theorem Expr.reduce_symbols (e : Expr) (es : List Expr) (rest : List Symbol) :
    (e.symbols ++ rest).foldlM Symbol.reduce es = rest.foldlM Symbol.reduce (e :: es) := by
  induction e generalizing es rest with
  | operand item => rfl
  | repeated op body ih =>
    rw [symbols_repeated, List.append_assoc, ih]
    rfl
  | concat left right ihl ihr | alternate left right ihl ihr =>
    simp only [symbols_concat, symbols_alternate, List.append_assoc]
    rw [ihl, ihr]
    rfl

def Symbol.ofExprs (es : List Expr) : List Symbol :=
  es.reverse.flatMap Expr.symbols

theorem Symbol.ofExprs_of_reduce {s : Symbol} {es es' : List Expr} (h : s.reduce es = some es') :
    ofExprs es' = ofExprs es ++ [s] := by
  cases s with
  | operand item =>
    cases h
    simp [ofExprs]
  | repetition op =>
    match es with
    | [] => cases h
    | body :: es =>
      cases h
      simp [ofExprs]
  | concat | alternate =>
    match es with
    | [] | [_] => cases h
    | right :: left :: es =>
      cases h
      simp [ofExprs]

theorem Symbol.ofExprs_of_foldlM {symbols : List Symbol} {es es' : List Expr}
    (h : symbols.foldlM Symbol.reduce es = some es') : ofExprs es' = ofExprs es ++ symbols := by
  induction symbols generalizing es with
  | nil =>
    cases h
    rw [List.append_nil]
  | cons s symbols ih =>
    obtain ⟨es₁, first, others⟩ := Option.bind_eq_some_iff.1 h
    rw [ih others, ofExprs_of_reduce first, List.append_assoc]
    rfl

/-- The only symbols that reduce to an expression are its own. -/
theorem Symbol.reduce_eq_iff {symbols : List Symbol} {e : Expr} :
    symbols.foldlM Symbol.reduce [] = some [e] ↔ symbols = e.symbols := by
  constructor
  · intro reduced
    have same := ofExprs_of_foldlM reduced
    simpa [ofExprs] using same.symm
  · rintro rfl
    have reduced := e.reduce_symbols [] []
    rwa [List.append_nil] at reduced

namespace Construction

def draftOf : List Expr → List (Node (Option Nat))
  | [] => []
  | e :: es => draftOf es ++ e.layout some (draftOf es).length none

def fragmentsOf : List Expr → List Fragment
  | [] => []
  | e :: es => ⟨e.entry (draftOf es).length, e.holes (draftOf es).length⟩ :: fragmentsOf es

variable {c : Construction}

theorem addSingle_eq {d d' : Draft} {node : Node (Option Nat)} {f : Fragment}
    (h : c.addSingle d node = .ok (d', f)) :
    d'.toList = d.toList ++ [node] ∧ f = ⟨d.size, [⟨d.size, .first⟩]⟩ := by
  obtain ⟨added, done, result⟩ := ok_of_bind h
  cases result
  exact ⟨Draft.toList_of_add done, rfl⟩

theorem addBytes_eq {bytes : List UInt8} {d d' : Draft} (h : c.addBytes d bytes = .ok d') :
    d'.toList = d.toList ++ bytes.map fun b => .consume (.byte b) none := by
  induction bytes generalizing d with
  | nil =>
    cases h
    rw [List.map_nil, List.append_nil]
  | cons b bytes ih =>
    obtain ⟨added, first, others⟩ := ok_of_bind h
    rw [ih others, Draft.toList_of_add first, List.append_assoc]
    rfl

theorem addChain_eq {bytes : List UInt8} (nonempty : bytes ≠ []) {d d' : Draft} {f : Fragment}
    (h : c.addChain d bytes = .ok (d', f)) :
    d'.toList = d.toList ++ (chain some bytes.dropLast d.size ++
      [.consume (.byte (bytes.getLastD 0)) none]) ∧
      f = ⟨d.size, [⟨d.size + (bytes.length - 1), .first⟩]⟩ := by
  obtain ⟨b, bytes, rfl⟩ := List.exists_cons_of_ne_nil nonempty
  obtain ⟨added, add, rest⟩ := ok_of_bind h
  obtain ⟨linked, link, result⟩ := ok_of_bind rest
  cases result
  obtain ⟨d₁, link', nodes⟩ := Draft.link_eq (addBytes_eq add)
  rw [Array.length_toList] at link' nodes
  cases link'.symm.trans link
  exact ⟨nodes, rfl⟩

theorem addOperand_eq {item : Operand} {d d' : Draft} {f : Fragment}
    (h : c.addOperand d item = .ok (d', f)) :
    d'.toList = d.toList ++ (Expr.operand item).layout some d.size none ∧
      f = ⟨d.size, (Expr.operand item).holes d.size⟩ := by
  cases item with
  | literal char =>
    obtain ⟨nodes, rfl⟩ := addChain_eq (String.utf8EncodeChar_ne_nil) h
    refine ⟨nodes, ?_⟩
    rw [String.length_utf8EncodeChar]
    rfl
  | charClass text | wildcard | anchor place => exact addSingle_eq h

theorem addRepetition_eq {op : Repetition} {body : Expr} {before : List (Node (Option Nat))}
    {d d' : Draft} {f : Fragment}
    (laid : d.toList = before ++ body.layout some before.length none)
    (h : c.addRepetition d ⟨body.entry before.length, body.holes before.length⟩ op = .ok (d', f)) :
    d'.toList = before ++ (Expr.repeated op body).layout some before.length none ∧
      f = ⟨(Expr.repeated op body).entry before.length,
        (Expr.repeated op body).holes before.length⟩ := by
  have size : d.size = before.length + body.width := by
    rw [← Array.length_toList, laid, List.length_append, Expr.length_layout]
  obtain ⟨added, done, result⟩ := ok_of_bind h
  have nodes := Draft.toList_of_add done
  rw [laid, List.append_assoc] at nodes
  rw [size] at result
  -- the loop of a star or a plus leads back to the new split
  obtain ⟨looped, filled, loop⟩ := Draft.fillAll_holes (before.length + body.width) body rfl nodes
  cases op with
  | star | plus =>
    obtain ⟨d₁, fill, final⟩ := ok_of_bind result
    rw [filled] at fill
    cases fill
    cases final
    exact ⟨by simpa [Expr.layout, Expr.loopExit] using loop, rfl⟩
  | option =>
    cases result
    exact ⟨by simpa [Expr.layout, Expr.loopExit] using nodes, rfl⟩

theorem join_eq {left right : Expr} {before : List (Node (Option Nat))} {d d' : Draft}
    (laid : d.toList = before ++ left.layout some before.length none ++
      right.layout some (before.length + left.width) none)
    (h : d.fillAll (right.entry (before.length + left.width)) (left.holes before.length) = .ok d') :
    d'.toList = before ++ (Expr.concat left right).layout some before.length none := by
  rw [List.append_assoc] at laid
  obtain ⟨joined, filled, result⟩ := Draft.fillAll_holes _ left rfl laid
  rw [filled] at h
  cases h
  exact result

theorem step_eq {s : Symbol} {es : List Expr} {d d' : Draft} {stack : List Fragment}
    (laid : d.toList = draftOf es) (h : c.step (d, fragmentsOf es) s = .ok (d', stack)) :
    ∃ es', s.reduce es = some es' ∧ d'.toList = draftOf es' ∧ stack = fragmentsOf es' := by
  have size : d.size = (draftOf es).length := by rw [← laid, Array.length_toList]
  cases s with
  | operand item =>
    obtain ⟨⟨added, f⟩, done, result⟩ := ok_of_bind h
    cases result
    obtain ⟨nodes, rfl⟩ := addOperand_eq done
    refine ⟨.operand item :: es, rfl, ?_, ?_⟩
    · rw [nodes, laid, size, draftOf]
    · rw [size]
      rfl
  | repetition op =>
    match es with
    | [] => cases h
    | body :: es =>
      obtain ⟨⟨added, f⟩, done, result⟩ := ok_of_bind h
      cases result
      obtain ⟨nodes, rfl⟩ := addRepetition_eq laid done
      exact ⟨.repeated op body :: es, rfl, nodes, rfl⟩
  | concat =>
    match es with
    | [] | [_] => cases h
    | right :: left :: es =>
      obtain ⟨joined, done, result⟩ := ok_of_bind h
      cases result
      have place : (draftOf (left :: es)).length = (draftOf es).length + left.width := by
        rw [draftOf, List.length_append, Expr.length_layout]
      rw [draftOf, place, draftOf] at laid
      rw [place] at done
      refine ⟨.concat left right :: es, rfl, join_eq laid done, ?_⟩
      rw [place]
      rfl
  | alternate =>
    match es with
    | [] | [_] => cases h
    | right :: left :: es =>
      obtain ⟨added, done, result⟩ := ok_of_bind h
      cases result
      have place : (draftOf (left :: es)).length = (draftOf es).length + left.width := by
        rw [draftOf, List.length_append, Expr.length_layout]
      rw [size, draftOf, List.length_append, Expr.length_layout, place]
      refine ⟨.alternate left right :: es, rfl, ?_, rfl⟩
      rw [Draft.toList_of_add done, laid, draftOf, place, draftOf]
      simp [draftOf, Expr.layout]

theorem foldlM_step_eq {symbols : List Symbol} (es : List Expr) {d d' : Draft}
    {stack : List Fragment} (laid : d.toList = draftOf es)
    (h : symbols.foldlM c.step (d, fragmentsOf es) = .ok (d', stack)) :
    ∃ es', symbols.foldlM Symbol.reduce es = some es' ∧ d'.toList = draftOf es' ∧
      stack = fragmentsOf es' := by
  induction symbols generalizing d es with
  | nil =>
    cases h
    exact ⟨es, rfl, laid, rfl⟩
  | cons s symbols ih =>
    obtain ⟨⟨d₁, stack₁⟩, first, rest⟩ := ok_of_bind h
    obtain ⟨es₁, reduced, laid₁, rfl⟩ := step_eq laid first
    obtain ⟨es', others, result⟩ := ih es₁ laid₁ rest
    refine ⟨es', ?_, result⟩
    rw [List.foldlM_cons, reduced]
    exact others

end Construction

namespace Expr

/-- The nodes that read other bytes before an expression, and those that read other bytes after it
and then lead to `exit`. -/
def surroundings {τ : Type} (known : Nat → τ) (e : Expr) (exit : τ) : List (Node τ) :=
  [.consume (.set .any) (known (e.width + 1)), .split (known e.width) (known (e.entry 0)),
    .consume (.set .any) (known (e.width + 3)), .split (known (e.width + 2)) exit]

def automaton (e : Expr) (unanchored : Bool) : Automaton :=
  if unanchored then
    { nodes := (e.layout id 0 (e.width + 3) ++ (e.surroundings id (e.width + 4) ++
        [Node.accept])).toArray
      start := e.width + 1
      accept := e.width + 4 }
  else
    { nodes := (e.layout id 0 e.width ++ [Node.accept]).toArray
      start := e.entry 0
      accept := e.width }

end Expr

theorem Draft.finish_eq {d : Draft} {nodes : List (Node Nat)}
    (known : d.toList = nodes.map (Node.map some)) : d.finish = .ok nodes.toArray := by
  have all : (nodes.map (Node.map some)).mapM Node.finish? = some nodes := by
    clear known
    induction nodes with
    | nil => rfl
    | cons n nodes ih => simp [List.mapM_cons, ih]
  have drafted : d = (nodes.map (Node.map some)).toArray := by rw [← known, Array.toArray_toList]
  have finished : d.mapM Node.finish? = some nodes.toArray := by
    rw [drafted, List.mapM_toArray, all]
    rfl
  simp only [finish, finished]

namespace Construction

variable {c : Construction}

theorem complete_eq {d : Draft} {body : Fragment} {m : Automaton} (nodes : List (Node Nat))
    (fills : ∀ added : Draft, added.toList = d.toList ++ [Node.accept] →
      ∃ d', added.fillAll d.size body.holes = .ok d' ∧ d'.toList = nodes.map (Node.map some))
    (h : c.complete d body = .ok m) : m = ⟨nodes.toArray, body.entry, d.size⟩ := by
  obtain ⟨added, done, rest⟩ := ok_of_bind h
  obtain ⟨d', filled, known⟩ := fills added (Draft.toList_of_add done)
  obtain ⟨_, filled', rest⟩ := ok_of_bind rest
  rw [filled] at filled'
  cases filled'
  obtain ⟨_, finished, result⟩ := ok_of_bind rest
  rw [Draft.finish_eq known] at finished
  cases finished
  cases result
  rfl

theorem fill_anchored {e : Expr} {d added : Draft} (laid : d.toList = e.layout some 0 none)
    (parts : added.toList = d.toList ++ [Node.accept]) :
    ∃ d', added.fillAll d.size (e.holes 0) = .ok d' ∧
      d'.toList = (e.layout id 0 e.width ++ [Node.accept]).map (Node.map some) := by
  have size : d.size = e.width := by rw [← Array.length_toList, laid, Expr.length_layout]
  rw [laid] at parts
  obtain ⟨d', done, known⟩ := Draft.fillAll_holes d.size e List.length_nil parts
  refine ⟨d', done, ?_⟩
  rw [known, List.map_append, Expr.map_layout, size]
  rfl

theorem complete_anchored {e : Expr} {d : Draft} {m : Automaton}
    (laid : d.toList = e.layout some 0 none)
    (h : c.complete d ⟨e.entry 0, e.holes 0⟩ = .ok m) : m = e.automaton false := by
  have size : d.size = e.width := by rw [← Array.length_toList, laid, Expr.length_layout]
  rw [complete_eq _ (fun added parts => fill_anchored laid parts) h, size]
  rfl

theorem fill_loop {d d₁ d₂ : Draft} (add₁ : d.add c.sizeLimit (.consume (.set .any) none) = .ok d₁)
    (add₂ : d₁.add c.sizeLimit (.split (some d.size) none) = .ok d₂) :
    ∃ d₃, d₂.fill (d.size + 1) ⟨d.size, .first⟩ = .ok d₃ ∧ d₃.toList = d.toList ++
      [.consume (.set .any) (some (d.size + 1)), .split (some d.size) none] := by
  have parts : d₂.toList =
      d.toList ++ .consume (.set .any) none :: [.split (some d.size) none] := by
    rw [Draft.toList_of_add add₂, Draft.toList_of_add add₁, List.append_assoc]
    rfl
  exact Draft.fill_at _ .first Array.length_toList parts rfl

theorem addLoop_eq {d d' : Draft} (h : c.addLoop d = .ok d') : d'.toList = d.toList ++
    [.consume (.set .any) (some (d.size + 1)), .split (some d.size) none] := by
  obtain ⟨d₁, add₁, h⟩ := ok_of_bind h
  obtain ⟨d₂, add₂, h⟩ := ok_of_bind h
  obtain ⟨d₃, filled, nodes⟩ := fill_loop add₁ add₂
  cases filled.symm.trans h
  exact nodes

theorem fill_before {e : Expr} {d looped : Draft} (laid : d.toList = e.layout some 0 none)
    (loop : c.addLoop d = .ok looped) :
    ∃ d', looped.fill (e.entry 0) ⟨d.size + 1, .second⟩ = .ok d' ∧
      d'.toList = e.layout some 0 none ++ (e.surroundings some none).take 2 := by
  have size : d.size = e.width := by rw [← Array.length_toList, laid, Expr.length_layout]
  have parts : looped.toList = (e.layout some 0 none ++ [.consume (.set .any) (some (e.width + 1))]) ++
      .split (some e.width) none :: [] := by
    rw [addLoop_eq loop, laid, size, List.append_assoc]
    rfl
  have place : (e.layout some 0 none ++ [Node.consume (.set .any) (some (e.width + 1))]).length =
      d.size + 1 := by rw [List.length_append, Expr.length_layout, size, List.length_singleton]
  obtain ⟨d', filled, nodes⟩ := Draft.fill_at (e.entry 0) .second place parts rfl
  refine ⟨d', filled, ?_⟩
  rw [nodes, List.append_assoc]
  rfl

theorem fill_after {e : Expr} {d looped : Draft}
    (laid : d.toList = e.layout some 0 none ++ (e.surroundings some none).take 2)
    (loop : c.addLoop d = .ok looped) : d.size = e.width + 2 ∧
      ∃ d', looped.fillAll (d.size + 1) (e.holes 0) = .ok d' ∧
        d'.toList = e.layout some 0 (some (e.width + 3)) ++ e.surroundings some none := by
  have size : d.size = e.width + 2 := by
    rw [← Array.length_toList, laid, List.length_append, Expr.length_layout]
    rfl
  have parts : looped.toList = e.layout some 0 none ++ e.surroundings some none := by
    rw [addLoop_eq loop, laid, size, List.append_assoc]
    rfl
  rw [size]
  exact ⟨rfl, Draft.fillAll_holes (e.width + 3) e List.length_nil parts⟩

theorem surround_eq {e : Expr} {d d' : Draft} {body : Fragment}
    (laid : d.toList = e.layout some 0 none)
    (h : c.surround d ⟨e.entry 0, e.holes 0⟩ = .ok (d', body)) :
    d'.toList = e.layout some 0 (some (e.width + 3)) ++ e.surroundings some none ∧
      body = ⟨e.width + 1, [⟨e.width + 3, .second⟩]⟩ := by
  have size : d.size = e.width := by rw [← Array.length_toList, laid, Expr.length_layout]
  obtain ⟨d₁, loop₁, h⟩ := ok_of_bind h
  obtain ⟨d₂, entered, h⟩ := ok_of_bind h
  obtain ⟨d₃, loop₂, h⟩ := ok_of_bind h
  obtain ⟨d₄, left, h⟩ := ok_of_bind h
  cases h
  obtain ⟨_, entered', laid₂⟩ := fill_before laid loop₁
  cases entered'.symm.trans entered
  obtain ⟨size₂, _, left', result⟩ := fill_after laid₂ loop₂
  cases left'.symm.trans left
  rw [size, size₂]
  exact ⟨result, rfl⟩

theorem fill_surrounded {e : Expr} {d added : Draft}
    (laid : d.toList = e.layout some 0 (some (e.width + 3)) ++ e.surroundings some none)
    (parts : added.toList = d.toList ++ [Node.accept]) :
    ∃ d', added.fillAll d.size [⟨e.width + 3, .second⟩] = .ok d' ∧
      d'.toList = (e.layout id 0 (e.width + 3) ++
        (e.surroundings id (e.width + 4) ++ [Node.accept])).map (Node.map some) := by
  have size : d.size = e.width + 4 := by
    rw [← Array.length_toList, laid, List.length_append, Expr.length_layout]
    rfl
  have place : (e.layout some 0 (some (e.width + 3)) ++
      (e.surroundings some none).take 3).length = e.width + 3 := by
    rw [List.length_append, Expr.length_layout]
    rfl
  have parts' : added.toList = (e.layout some 0 (some (e.width + 3)) ++
      (e.surroundings some none).take 3) ++
      .split (some (e.width + 2)) none :: [Node.accept] := by
    rw [parts, laid]
    simp [Expr.surroundings]
  obtain ⟨d', done, known⟩ := Draft.fill_at d.size .second place parts' rfl
  refine ⟨d', (Draft.fillAll_singleton ..).trans done, ?_⟩
  rw [known, List.map_append, Expr.map_layout, size]
  simp [Expr.surroundings, Node.map]

theorem complete_surrounded {e : Expr} {d : Draft} {m : Automaton}
    (laid : d.toList = e.layout some 0 (some (e.width + 3)) ++ e.surroundings some none)
    (h : c.complete d ⟨e.width + 1, [⟨e.width + 3, .second⟩]⟩ = .ok m) : m = e.automaton true := by
  have size : d.size = e.width + 4 := by
    rw [← Array.length_toList, laid, List.length_append, Expr.length_layout]
    rfl
  rw [complete_eq _ (fun added parts => fill_surrounded laid parts) h, size]
  rfl

/-- Symbols of which an automaton can be built reduce to one expression, and the automaton is that of
the expression. -/
theorem ofSymbols_eq {symbols : List Symbol} {m : Automaton} (h : c.ofSymbols symbols = .ok m) :
    ∃ e, symbols.foldlM Symbol.reduce [] = some [e] ∧ m = e.automaton c.unanchored := by
  obtain ⟨⟨d, stack⟩, steps, rest⟩ := ok_of_bind h
  obtain ⟨es, reduced, laid, rfl⟩ := foldlM_step_eq [] rfl steps
  match es with
  | [] | _ :: _ :: _ => cases rest
  | [e] =>
    refine ⟨e, reduced, ?_⟩
    cases unanchored : c.unanchored with
    | false =>
      simp only [fragmentsOf, unanchored] at rest
      exact complete_anchored laid rest
    | true =>
      simp only [fragmentsOf, unanchored] at rest
      obtain ⟨⟨d', body⟩, surrounded, rest⟩ := ok_of_bind rest
      obtain ⟨laid', rfl⟩ := surround_eq laid surrounded
      exact complete_surrounded laid' rest

theorem ofSymbols_symbols {e : Expr} {m : Automaton} (h : c.ofSymbols e.symbols = .ok m) :
    m = e.automaton c.unanchored := by
  obtain ⟨e', reduced, result⟩ := ofSymbols_eq h
  have same := Expr.reduce_symbols e [] []
  rw [List.append_nil, reduced] at same
  cases same
  exact result

end Construction

end ByteRegex
