import ByteRegex.Automaton.Graph
import Mathlib.Data.List.Basic

/-! Drawings that are read again. A reader of the language takes the character after a backslash as it is,
so the text in quotes on the line of an edge ends where it was closed and is the label of the edge. The
lines of a drawing that can be read as edges give the edges of the automaton in the order of its nodes, and
these are its transitions. -/

namespace ByteRegex

/-- What stands before the quote that closes a text, and what follows it. A backslash takes the character
after it as it is. -/
def unquote : List Char → Option (List Char × List Char)
  | [] => none
  | '\x22' :: rest => some ([], rest)
  | '\\' :: c :: rest => (unquote rest).map fun (text, after) => (c :: text, after)
  | c :: rest => (unquote rest).map fun (text, after) => (c :: text, after)

variable {before rest text after cs : List Char}

theorem length_of_unquote (h : unquote cs = some (text, after)) : after.length < cs.length := by
  fun_induction unquote cs generalizing text with
  | case1 => cases h
  | case2 rest =>
    cases h
    exact Nat.lt_succ_self _
  | case3 c rest ih =>
    obtain ⟨⟨inner, tail⟩, found, eq⟩ := Option.map_eq_some_iff.1 h
    cases eq
    have shorter := ih found
    simp only [List.length_cons]
    omega
  | case4 c rest _ _ ih =>
    obtain ⟨⟨inner, tail⟩, found, eq⟩ := Option.map_eq_some_iff.1 h
    cases eq
    exact Nat.lt_trans (ih found) (Nat.lt_succ_self _)

/-- The texts in quotes on a line, unless one of them is not closed. -/
def quotedTexts : List Char → Option (List (List Char))
  | [] => some []
  | '\x22' :: rest =>
    match _closed : unquote rest with
    | none => none
    | some (text, after) => (quotedTexts after).map (text :: ·)
  | _ :: rest => quotedTexts rest
termination_by line => line.length
decreasing_by
  · exact Nat.lt_succ_of_lt (length_of_unquote _closed)
  · exact Nat.lt_succ_self _

def numeral? (cs : List Char) : Option (Nat × List Char) :=
  if cs.takeWhile Char.isDigit = [] then none
  else some (Nat.ofDigitChars 10 (cs.takeWhile Char.isDigit) 0, cs.dropWhile Char.isDigit)

def dashed? (cs : List Char) : Option Bool :=
  if cs = "];".toList then some false
  else if cs = ", style=dashed];".toList then some true
  else none

def Edge.ofLine? (line : List Char) : Option Edge := do
  let (source, cs) ← numeral? (← line.dropPrefix? "  ".toList)
  let (target, cs) ← numeral? (← cs.dropPrefix? " -> ".toList)
  let (label, cs) ← unquote (← cs.dropPrefix? " [label=\"".toList)
  return ⟨source, target, String.ofList label, ← dashed? cs⟩

/-- The transitions of a node, from where to where and whether dashed. Only the second transition of a
split is. -/
def Node.transitions (a : Nat) : Node Nat → List (Nat × Nat × Bool)
  | consume _ b => [(a, b, false)]
  | split b c => [(a, b, false), (a, c, true)]
  | require _ b => [(a, b, false)]
  | accept => []

def Automaton.transitions (m : Automaton) : List (Nat × Nat × Bool) :=
  m.nodes.toList.zipIdx.flatMap fun (node, a) => node.transitions a

def Automaton.drawnLines (m : Automaton) : List (List Char) :=
  m.graph.toList.splitOn '\n'

theorem unquote_escape (label after : List Char) :
    unquote (Edge.escape label ++ '\x22' :: after) = some (label, after) := by
  induction label with
  | nil => rfl
  | cons c label ih =>
    have written : Edge.escape (c :: label) =
        (if c = '\x22' || c = '\\' then ['\\', c] else [c]) ++ Edge.escape label := rfl
    rw [written, List.append_assoc]
    split
    case isTrue special => simp [unquote, ih]
    case isFalse other =>
      obtain ⟨noQuote, noBackslash⟩ : c ≠ '\x22' ∧ c ≠ '\\' := by simpa using other
      simp [unquote, ih, noBackslash]

theorem quotedTexts_append (absent : '\x22' ∉ before) (cs : List Char) :
    quotedTexts (before ++ cs) = quotedTexts cs := by
  induction before with
  | nil => rfl
  | cons c before ih =>
    obtain ⟨other, absent⟩ := List.ne_and_not_mem_of_not_mem_cons absent
    rw [List.cons_append, quotedTexts, ih absent]
    exact fun same => other same.symm

theorem quotedTexts_quote (closed : unquote rest = some (text, after)) :
    quotedTexts ('\x22' :: rest) = (quotedTexts after).map (text :: ·) := by
  rw [quotedTexts]
  split
  next none => cases closed.symm.trans none
  next found => cases closed.symm.trans found; rfl

theorem dropPrefix?_append (start rest : List Char) : (start ++ rest).dropPrefix? start = some rest :=
  List.dropPrefix?_append_of_beq rest (beq_self_eq_true start)

theorem not_mem_toDigits (n : Nat) {c : Char} (other : c.isDigit = false) : c ∉ Nat.toDigits 10 n :=
  fun member =>
    Bool.false_ne_true (other.symm.trans (Nat.isDigit_of_mem_toDigits (by decide) (by decide) member))

theorem numeral?_toDigits (n : Nat) (stop : cs.takeWhile Char.isDigit = []) :
    numeral? (Nat.toDigits 10 n ++ cs) = some (n, cs) := by
  have digits : ∀ d ∈ Nat.toDigits 10 n, d.isDigit = true :=
    fun d member => Nat.isDigit_of_mem_toDigits (by decide) (by decide) member
  have rest : cs.dropWhile Char.isDigit = cs := by
    have parts := List.takeWhile_append_dropWhile (p := Char.isDigit) (l := cs)
    rwa [stop, List.nil_append] at parts
  have taken : (Nat.toDigits 10 n ++ cs).takeWhile Char.isDigit = Nat.toDigits 10 n := by
    rw [List.takeWhile_append_of_pos digits, stop, List.append_nil]
  rw [numeral?, taken, List.dropWhile_append_of_pos digits, rest, if_neg Nat.toDigits_ne_nil,
    Nat.ofDigitChars_toDigits (by decide) (by decide)]

namespace Edge

variable {e : Edge}

def opening (e : Edge) : List Char :=
  "  ".toList ++ (Nat.toDigits 10 e.source ++ (" -> ".toList ++
    (Nat.toDigits 10 e.target ++ " [label=".toList)))

def closing (e : Edge) : List Char :=
  (if e.dashed then ", style=dashed" else "").toList ++ "];".toList

theorem toList_line (e : Edge) : e.line.toList =
    e.opening ++ '\x22' :: (escape e.label.toList ++ '\x22' :: e.closing) := by
  simp [line, opening, closing, Nat.toString_eq_repr, Nat.toList_repr]

theorem not_mem_opening (e : Edge) {c : Char} (other : c.isDigit = false)
    (absent : c ∉ "  ".toList ++ " -> ".toList ++ " [label=".toList) : c ∉ e.opening := by
  simp only [List.mem_append, not_or] at absent
  simp only [opening, List.mem_append, not_or]
  exact ⟨absent.1.1, not_mem_toDigits _ other, absent.1.2, not_mem_toDigits _ other, absent.2⟩

theorem not_mem_closing (e : Edge) {c : Char}
    (absent : c ∉ ", style=dashed".toList ++ "];".toList) : c ∉ e.closing := by
  rw [List.mem_append, not_or] at absent
  rw [closing, List.mem_append, not_or]
  refine ⟨?_, absent.2⟩
  split
  · exact absent.1
  · exact List.not_mem_nil

theorem dashed?_closing (e : Edge) : dashed? e.closing = some e.dashed := by
  rw [closing]
  cases e.dashed <;> decide

theorem ofLine?_line (e : Edge) : ofLine? e.line.toList = some e := by
  have source (rest : List Char) : numeral? (Nat.toDigits 10 e.source ++ (" -> ".toList ++ rest)) =
      some (e.source, " -> ".toList ++ rest) := numeral?_toDigits _ rfl
  have target (rest : List Char) :
      numeral? (Nat.toDigits 10 e.target ++ (" [label=\"".toList ++ rest)) =
        some (e.target, " [label=\"".toList ++ rest) := numeral?_toDigits _ rfl
  have line : e.line.toList = "  ".toList ++ (Nat.toDigits 10 e.source ++ (" -> ".toList ++
      (Nat.toDigits 10 e.target ++ (" [label=\"".toList ++
        (escape e.label.toList ++ '\x22' :: e.closing))))) := by
    have quoted : " [label=\"".toList = " [label=".toList ++ ['\x22'] := by decide
    rw [toList_line, opening, quoted]
    simp only [List.append_assoc, List.singleton_append]
  rw [line, ofLine?]
  simp only [dropPrefix?_append, source, target, unquote_escape, dashed?_closing, Option.bind_eq_bind,
    Option.bind_some, Option.pure_def, String.ofList_toList]

theorem ofLine?_of_none {cs : List Char} (noNumeral : numeral? cs = none) :
    ofLine? ("  ".toList ++ cs) = none := by
  rw [ofLine?, dropPrefix?_append]
  simp only [noNumeral, Option.bind_eq_bind, Option.bind_some, Option.bind_none]

theorem ofLine?_of_numeral {cs rest : List Char} {n : Nat} (numeral : numeral? cs = some (n, rest))
    (noArrow : rest.dropPrefix? " -> ".toList = none) : ofLine? ("  ".toList ++ cs) = none := by
  rw [ofLine?, dropPrefix?_append]
  simp only [numeral, noArrow, Option.bind_eq_bind, Option.bind_some, Option.bind_none]

theorem quotedTexts_line (e : Edge) : quotedTexts e.line.toList = some [e.label.toList] := by
  have before : '\x22' ∉ e.opening := e.not_mem_opening rfl (by decide)
  have after : quotedTexts (e.closing ++ []) = some [] := by
    rw [quotedTexts_append (e.not_mem_closing (by decide)), quotedTexts]
  rw [List.append_nil] at after
  rw [toList_line, quotedTexts_append before, quotedTexts_quote (unquote_escape _ _), after]
  rfl

theorem lineFeed_not_mem_line (absent : '\n' ∉ e.label.toList) : '\n' ∉ e.line.toList := by
  have escaped : '\n' ∉ escape e.label.toList := by
    intro member
    obtain ⟨c, inside, written⟩ := List.mem_flatMap.1 member
    split at written
    · obtain same | same : '\n' = '\\' ∨ '\n' = c := by simpa using written
      · cases same
      · exact absent (same ▸ inside)
    · exact absent (List.mem_singleton.1 written ▸ inside)
  rw [toList_line]
  simp only [List.mem_append, List.mem_cons, not_or]
  exact ⟨e.not_mem_opening rfl (by decide), by decide, escaped, by decide,
    e.not_mem_closing (by decide)⟩

end Edge

theorem lineFeed_not_mem_byteLabel (b : UInt8) : '\n' ∉ byteLabel b := by
  have every : ∀ n : Fin 256, '\n' ∉ byteLabel (UInt8.ofNat n) := by decide +kernel
  simpa using every ⟨b.toNat, b.toNat_lt⟩

theorem ByteSet.lineFeed_not_mem_label (s : ByteSet) : '\n' ∉ s.label := by
  have run (r : Nat × Nat) : '\n' ∉ runLabel r := by
    rw [runLabel]
    split <;> simp [lineFeed_not_mem_byteLabel]
  simp only [label, List.mem_append, List.mem_flatMap, not_or, not_exists, not_and]
  refine ⟨⟨⟨by decide, ?_⟩, fun r _ => run r⟩, by decide⟩
  split <;> simp

theorem Label.lineFeed_not_mem_display (label : Label) : '\n' ∉ label.display.toList := by
  cases label with
  | byte b => simpa [display] using lineFeed_not_mem_byteLabel b
  | set s => simpa [display] using s.lineFeed_not_mem_label

theorem Node.lineFeed_not_mem_edges {n : Node Nat} {a : Nat} {e : Edge} (leaves : e ∈ n.edges a) :
    '\n' ∉ e.label.toList := by
  have signs : '\n' ∉ "ε".toList ∧ '\n' ∉ "^".toList ∧ '\n' ∉ "$".toList := by decide
  cases n with
  | consume label next =>
    cases List.mem_singleton.1 leaves
    exact label.lineFeed_not_mem_display
  | split first second =>
    obtain rfl | rfl : e = ⟨a, first, "ε", false⟩ ∨ e = ⟨a, second, "ε", true⟩ := by
      simpa [edges] using leaves
    · exact signs.1
    · exact signs.1
  | require anchor next =>
    cases anchor with
    | textStart =>
      cases List.mem_singleton.1 leaves
      exact signs.2.1
    | textEnd =>
      cases List.mem_singleton.1 leaves
      exact signs.2.2
  | accept => cases leaves

theorem Node.map_edges (n : Node Nat) (a : Nat) :
    (n.edges a).map (fun e => (e.source, e.target, e.dashed)) = n.transitions a := by
  cases n with
  | require anchor next => cases anchor <;> rfl
  | consume | split | accept => rfl

theorem splitOn_flatMap {lines : List (List Char)} (absent : ∀ line ∈ lines, '\n' ∉ line) :
    (lines.flatMap (· ++ ['\n'])).splitOn '\n' = lines ++ [[]] := by
  induction lines with
  | nil => rfl
  | cons line lines ih =>
    obtain ⟨first, others⟩ := List.forall_mem_cons.1 absent
    rw [List.flatMap_cons, List.append_assoc, List.singleton_append,
      List.splitOn_append_cons_self_of_not_mem first, ih others, List.cons_append]

/-- Whether the edges are those that can be read off the lines. An edge is only read off its own line, and
no line has a line feed. -/
structure Draw (lines : List String) (edges : List Edge) : Prop where
  absent : ∀ line ∈ lines, '\n' ∉ line.toList
  filterMap_eq : lines.filterMap (fun line => Edge.ofLine? line.toList) = edges
  line_eq : ∀ line ∈ lines, ∀ e, Edge.ofLine? line.toList = some e → line = e.line

theorem draw_others {lines : List String}
    (others : ∀ line ∈ lines, '\n' ∉ line.toList ∧ Edge.ofLine? line.toList = none) :
    Draw lines [] where
  absent line member := (others line member).1
  filterMap_eq := List.filterMap_eq_nil_iff.2 fun line member => (others line member).2
  line_eq line member e read := by cases (others line member).2.symm.trans read

theorem Edge.draw (e : Edge) (absent : '\n' ∉ e.label.toList) : Draw [e.line] [e] where
  absent := by simpa using lineFeed_not_mem_line absent
  filterMap_eq := by simp [ofLine?_line]
  line_eq := by simp [ofLine?_line]

theorem draw_flatMap {α : Type} {xs : List α} {lines : α → List String} {edges : α → List Edge}
    (each : ∀ x ∈ xs, Draw (lines x) (edges x)) : Draw (xs.flatMap lines) (xs.flatMap edges) where
  absent line member := by
    obtain ⟨x, inside, isLine⟩ := List.mem_flatMap.1 member
    exact (each x inside).absent line isLine
  filterMap_eq := by
    rw [List.filterMap_flatMap]
    exact List.flatMap_congr fun x inside => (each x inside).filterMap_eq
  line_eq line member := by
    obtain ⟨x, inside, isLine⟩ := List.mem_flatMap.1 member
    exact (each x inside).line_eq line isLine

theorem Draw.append {lines lines' : List String} {edges edges' : List Edge} (h : Draw lines edges)
    (h' : Draw lines' edges') : Draw (lines ++ lines') (edges ++ edges') where
  absent line member := (List.mem_append.1 member).elim (h.absent line) (h'.absent line)
  filterMap_eq := by rw [List.filterMap_append, h.filterMap_eq, h'.filterMap_eq]
  line_eq line member := (List.mem_append.1 member).elim (h.line_eq line) (h'.line_eq line)

theorem draw_start (a : Nat) : Draw ["  start -> " ++ toString a ++ ";"] [] := by
  have line : ("  start -> " ++ toString a ++ ";").toList =
      "  ".toList ++ ("start -> ".toList ++ (Nat.toDigits 10 a ++ ";".toList)) := by
    simp [Nat.toString_eq_repr, Nat.toList_repr]
  refine draw_others (List.forall_mem_singleton.2 ⟨?_, ?_⟩)
  · rw [line]
    simp only [List.mem_append, not_or]
    exact ⟨by decide, by decide, not_mem_toDigits a rfl, by decide⟩
  · rw [line]
    exact Edge.ofLine?_of_none (if_pos rfl)

theorem draw_shape (a : Nat) : Draw ["  " ++ toString a ++ " [shape=doublecircle];"] [] := by
  have line : ("  " ++ toString a ++ " [shape=doublecircle];").toList =
      "  ".toList ++ (Nat.toDigits 10 a ++ " [shape=doublecircle];".toList) := by
    simp [Nat.toString_eq_repr, Nat.toList_repr]
  have noArrow : " [shape=doublecircle];".toList.dropPrefix? " -> ".toList = none := by decide
  refine draw_others (List.forall_mem_singleton.2 ⟨?_, ?_⟩)
  · rw [line]
    simp only [List.mem_append, not_or]
    exact ⟨by decide, not_mem_toDigits a rfl, by decide⟩
  · rw [line]
    exact Edge.ofLine?_of_numeral (numeral?_toDigits a rfl) noArrow

theorem Node.draw (n : Node Nat) (a : Nat) : Draw (n.graphLines a) (n.edges a) := by
  have lines : Draw ((n.edges a).map Edge.line) (n.edges a) := by
    have each := draw_flatMap fun (e : Edge) (leaves : e ∈ n.edges a) =>
      e.draw (Node.lineFeed_not_mem_edges leaves)
    rwa [List.flatMap_singleton', ← List.map_eq_flatMap] at each
  cases n with
  | accept => exact draw_shape a
  | consume | split | require => exact lines

namespace Automaton

variable (m : Automaton)

theorem draw_graphLines : Draw m.graphLines m.edges := by
  have first : Draw ["digraph nfa \x7b", "  rankdir=LR;", "  node [shape=circle];",
      "  start [shape=point];"] [] := draw_others (by decide)
  have last : Draw ["\x7d"] [] := draw_others (by decide)
  have nodes := draw_flatMap fun (x : Node Nat × Nat) (_ : x ∈ m.nodes.toList.zipIdx) => x.1.draw x.2
  have all := ((first.append (draw_start m.start)).append nodes).append last
  rw [List.append_nil, List.append_nil, List.nil_append] at all
  exact all

theorem drawnLines_eq : m.drawnLines = m.graphLines.map String.toList ++ [[]] := by
  have text : m.graph.toList = (m.graphLines.map String.toList).flatMap (· ++ ['\n']) := by
    rw [graph, String.toList_join, List.flatMap_map, List.flatMap_map]
    refine congrArg (List.flatMap · _) (funext fun line => ?_)
    simp
  rw [drawnLines, text, splitOn_flatMap]
  intro line member
  obtain ⟨s, isLine, rfl⟩ := List.mem_map.1 member
  exact m.draw_graphLines.absent s isLine

/-- The edges that can be read off the lines of a drawing are the edges of the automaton, in the order of
its nodes, and lead as its transitions do. A line from which an edge is read has one text in quotes, which
ends at the last quote of the line, and this is the label. -/
theorem drawing_reads_back (m : Automaton) :
    m.drawnLines.filterMap Edge.ofLine? = m.edges ∧
    m.edges.map (fun e => (e.source, e.target, e.dashed)) = m.transitions ∧
    ∀ line ∈ m.drawnLines, ∀ e, Edge.ofLine? line = some e →
      quotedTexts line = some [e.label.toList] ∧
      ∃ before after, line = before ++ '\x22' :: (Edge.escape e.label.toList ++ '\x22' :: after) ∧
        '\x22' ∉ before ∧ '\x22' ∉ after ∧
        unquote (Edge.escape e.label.toList ++ '\x22' :: after) = some (e.label.toList, after) := by
  have nothing : Edge.ofLine? [] = none := rfl
  refine ⟨?_, ?_, fun line member e read => ?_⟩
  · rw [drawnLines_eq, List.filterMap_append, List.filterMap_map]
    simpa [nothing] using m.draw_graphLines.filterMap_eq
  · rw [edges, List.map_flatMap]
    exact List.flatMap_congr fun x _ => x.1.map_edges x.2
  · rw [drawnLines_eq, List.mem_append, List.mem_map, List.mem_singleton] at member
    obtain ⟨s, isLine, rfl⟩ | rfl := member
    · have same := m.draw_graphLines.line_eq s isLine e read
      rw [same]
      exact ⟨e.quotedTexts_line, e.opening, e.closing, e.toList_line,
        e.not_mem_opening rfl (by decide), e.not_mem_closing (by decide), unquote_escape _ _⟩
    · cases nothing.symm.trans read

theorem drawing_reads_back_of_quote :
    "  0 -> 1 [label=\"[\\\\\\\"\\\\\\\\]\"];".toList ∈
      (⟨#[.consume (.set ((ByteSet.empty.add 0x22).add 0x5c)) 1, .accept], 0, 1⟩ : Automaton).drawnLines ∧
    quotedTexts "  0 -> 1 [label=\"[\\\\\\\"\\\\\\\\]\"];".toList = some ["[\\\"\\\\]".toList] := by
  have member : "  0 -> 1 [label=\"[\\\\\\\"\\\\\\\\]\"];".toList ∈
      (⟨#[.consume (.set ((ByteSet.empty.add 0x22).add 0x5c)) 1, .accept], 0, 1⟩ : Automaton).drawnLines := by
    decide +kernel
  exact ⟨member, ((drawing_reads_back _).2.2 _ member ⟨0, 1, "[\\\"\\\\]", false⟩ (by decide +kernel)).1⟩

end Automaton

end ByteRegex
