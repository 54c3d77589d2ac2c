import ByteRegex.Proofs.Shape
import ByteRegex.Proofs.Spans

/-! Runs of an automaton on a haystack, and what the runs through the nodes of an expression span.
Everything that enters an expression and comes to accept the haystack has gone through one of its
spans, and every span has a run. Accepting runs are counted, since a run that goes around a loop only
becomes shorter. -/

namespace ByteRegex

open Relation

namespace Automaton

inductive Step (m : Automaton) (haystack : List UInt8) : Nat × Nat → Nat × Nat → Prop
  | read {a i next : Nat} {label : Label} {b : UInt8} (node : m.nodes[a]? = some (.consume label next))
      (byte : haystack[i]? = some b) (reads : label.accepts b = true) :
      Step m haystack (a, i) (next, i + 1)
  | first {a i x y : Nat} (node : m.nodes[a]? = some (.split x y)) : Step m haystack (a, i) (x, i)
  | second {a i x y : Nat} (node : m.nodes[a]? = some (.split x y)) : Step m haystack (a, i) (y, i)
  | pass {a i next : Nat} {anchor : Anchor} (node : m.nodes[a]? = some (.require anchor next))
      (holds : anchor.HoldsAt haystack i) : Step m haystack (a, i) (next, i)

/-- Whether some run that starts at the start node reads the whole haystack and ends in the accepting
node. -/
def Accepts (m : Automaton) (haystack : List UInt8) : Prop :=
  ReflTransGen (m.Step haystack) (m.start, 0) (m.accept, haystack.length)

/-- Whether some run of the given number of steps accepts the rest of the haystack. -/
inductive AcceptsIn (m : Automaton) (haystack : List UInt8) : Nat → Nat × Nat → Prop
  | done : AcceptsIn m haystack 0 (m.accept, haystack.length)
  | step {n : Nat} {c c' : Nat × Nat} (first : m.Step haystack c c') (rest : AcceptsIn m haystack n c') :
      AcceptsIn m haystack (n + 1) c

def Holds (m : Automaton) (lo : Nat) (nodes : List (Node Nat)) : Prop :=
  ∀ k n, nodes[k]? = some n → m.nodes[lo + k]? = some n

variable {m : Automaton} {haystack : List UInt8}

theorem exists_acceptsIn_iff {c : Nat × Nat} : (∃ n, m.AcceptsIn haystack n c) ↔
    ReflTransGen (m.Step haystack) c (m.accept, haystack.length) := by
  constructor
  · rintro ⟨n, run⟩
    induction run with
    | done => exact .refl
    | step first _ ih => exact .head first ih
  · intro run
    induction run using ReflTransGen.head_induction_on with
    | refl => exact ⟨0, .done⟩
    | head first _ ih =>
      obtain ⟨n, rest⟩ := ih
      exact ⟨n + 1, .step first rest⟩

theorem AcceptsIn.place_le {n : Nat} {c : Nat × Nat} (run : m.AcceptsIn haystack n c) :
    c.2 ≤ haystack.length := by
  induction run with
  | done => exact Nat.le_refl _
  | step first _ ih =>
    cases first with
    | read _ byte _ => exact Nat.le_of_lt (List.getElem?_eq_some_iff.1 byte).1
    | first | second | pass => exact ih

theorem AcceptsIn.exists_step {n a i : Nat} {node : Node Nat} (run : m.AcceptsIn haystack n (a, i))
    (accepting : m.nodes[m.accept]? = some .accept) (found : m.nodes[a]? = some node)
    (other : node ≠ .accept) :
    ∃ n' c, n = n' + 1 ∧ m.Step haystack (a, i) c ∧ m.AcceptsIn haystack n' c := by
  cases run with
  | done => exact absurd (Option.some.inj (found.symm.trans accepting)) other
  | step first rest => exact ⟨_, _, rfl, first, rest⟩

theorem AcceptsIn.at_accept {n i : Nat} (run : m.AcceptsIn haystack n (m.accept, i))
    (accepting : m.nodes[m.accept]? = some .accept) : i = haystack.length := by
  generalize node : (m.accept, i) = c at run
  cases run with
  | done => exact congrArg Prod.snd node
  | step first _ =>
    cases first with
    | read found | first found | second found | pass found =>
      cases node
      cases accepting.symm.trans found

theorem AcceptsIn.read {n a i next : Nat} {label : Label} (run : m.AcceptsIn haystack n (a, i))
    (accepting : m.nodes[m.accept]? = some .accept)
    (found : m.nodes[a]? = some (.consume label next)) :
    ∃ n' b, n = n' + 1 ∧ haystack[i]? = some b ∧ label.accepts b = true ∧
      m.AcceptsIn haystack n' (next, i + 1) := by
  obtain ⟨n', c, rfl, step, rest⟩ := run.exists_step accepting found (by simp)
  cases step with
  | read node byte reads =>
    cases found.symm.trans node
    exact ⟨n', _, rfl, byte, reads, rest⟩
  | first node | second node | pass node => cases found.symm.trans node

theorem AcceptsIn.branch {n a i x y : Nat} (run : m.AcceptsIn haystack n (a, i))
    (accepting : m.nodes[m.accept]? = some .accept) (found : m.nodes[a]? = some (.split x y)) :
    ∃ n', n = n' + 1 ∧ (m.AcceptsIn haystack n' (x, i) ∨ m.AcceptsIn haystack n' (y, i)) := by
  obtain ⟨n', c, rfl, step, rest⟩ := run.exists_step accepting found (by simp)
  cases step with
  | first node =>
    cases found.symm.trans node
    exact ⟨n', rfl, .inl rest⟩
  | second node =>
    cases found.symm.trans node
    exact ⟨n', rfl, .inr rest⟩
  | read node | pass node => cases found.symm.trans node

theorem AcceptsIn.pass {n a i next : Nat} {anchor : Anchor} (run : m.AcceptsIn haystack n (a, i))
    (accepting : m.nodes[m.accept]? = some .accept)
    (found : m.nodes[a]? = some (.require anchor next)) :
    ∃ n', n = n' + 1 ∧ anchor.HoldsAt haystack i ∧ m.AcceptsIn haystack n' (next, i) := by
  obtain ⟨n', c, rfl, step, rest⟩ := run.exists_step accepting found (by simp)
  cases step with
  | pass node holds =>
    cases found.symm.trans node
    exact ⟨n', rfl, holds, rest⟩
  | read node | first node | second node => cases found.symm.trans node

theorem Holds.left {lo : Nat} {ns ms : List (Node Nat)} (h : m.Holds lo (ns ++ ms)) :
    m.Holds lo ns := by
  intro k n found
  refine h k n ?_
  rw [List.getElem?_append_left (List.getElem?_eq_some_iff.1 found).1, found]

theorem Holds.right {lo : Nat} {ns ms : List (Node Nat)} (h : m.Holds lo (ns ++ ms)) :
    m.Holds (lo + ns.length) ms := by
  intro k n found
  rw [Nat.add_assoc]
  refine h _ n ?_
  rw [List.getElem?_append_right (Nat.le_add_right _ _), Nat.add_sub_cancel_left, found]

theorem Holds.head {lo : Nat} {n : Node Nat} {ns : List (Node Nat)} (h : m.Holds lo (n :: ns)) :
    m.nodes[lo]? = some n :=
  h 0 n rfl

theorem Holds.tail {lo : Nat} {n : Node Nat} {ns : List (Node Nat)} (h : m.Holds lo (n :: ns)) :
    m.Holds (lo + 1) ns := by
  rw [← List.singleton_append] at h
  exact h.right

theorem run_of_chain {bytes : List UInt8} {last : UInt8} {lo i exit : Nat}
    (held : m.Holds lo (chain id bytes lo ++ [.consume (.byte last) exit]))
    (reads : bytes ++ [last] <+: haystack.drop i) :
    ReflTransGen (m.Step haystack) (lo, i) (exit, i + bytes.length + 1) := by
  induction bytes generalizing lo i with
  | nil =>
    obtain ⟨rest, split⟩ := reads
    have byte : haystack[i]? = some last := by
      rw [← List.head?_drop, ← split]
      rfl
    exact .single (.read held.head byte (by simp [Label.accepts]))
  | cons b bytes ih =>
    obtain ⟨rest, split⟩ := reads
    have byte : haystack[i]? = some b := by
      rw [← List.head?_drop, ← split]
      rfl
    have others : bytes ++ [last] <+: haystack.drop (i + 1) := by
      refine ⟨rest, ?_⟩
      rw [← List.tail_drop, ← split]
      rfl
    have tail := ih held.tail others
    rw [List.length_cons, Nat.add_comm bytes.length, ← Nat.add_assoc]
    exact .head (.read held.head byte (by simp [Label.accepts])) tail

theorem AcceptsIn.chain {bytes : List UInt8} {last : UInt8} {lo i exit n : Nat}
    (run : m.AcceptsIn haystack n (lo, i)) (accepting : m.nodes[m.accept]? = some .accept)
    (held : m.Holds lo (chain id bytes lo ++ [.consume (.byte last) exit])) :
    bytes ++ [last] <+: haystack.drop i ∧
      ∃ n', n' < n ∧ m.AcceptsIn haystack n' (exit, i + bytes.length + 1) := by
  induction bytes generalizing lo i n with
  | nil =>
    obtain ⟨n', b, rfl, byte, reads, rest⟩ := run.read accepting held.head
    have same : last = b := by simpa [Label.accepts] using reads
    refine ⟨?_, n', Nat.lt_succ_self n', rest⟩
    rw [same, List.drop_eq_getElem?_toList_append, byte]
    exact List.prefix_append [b] _
  | cons c bytes ih =>
    obtain ⟨n', b, rfl, byte, reads, rest⟩ := run.read accepting held.head
    have same : c = b := by simpa [Label.accepts] using reads
    obtain ⟨others, n'', fewer, rest'⟩ := ih rest held.tail
    refine ⟨?_, n'', Nat.lt_succ_of_lt fewer, ?_⟩
    · rw [same, List.drop_eq_getElem?_toList_append, byte]
      exact (List.prefix_append_right_inj [b]).2 others
    · rw [List.length_cons, Nat.add_comm bytes.length, ← Nat.add_assoc]
      exact rest'

end Automaton

theorem encode_eq_append (c : Char) : (String.utf8EncodeChar c).dropLast ++
    [(String.utf8EncodeChar c).getLastD 0] = String.utf8EncodeChar c := by
  have nonempty : String.utf8EncodeChar c ≠ [] := by
    intro empty
    have size := String.length_utf8EncodeChar c
    have pos := c.utf8Size_pos
    rw [empty, List.length_nil] at size
    omega
  rw [List.getLastD_eq_getLast?, List.getLast?_eq_some_getLast nonempty, Option.getD_some,
    List.dropLast_concat_getLast nonempty]

theorem contains_wildcardSet (b : UInt8) :
    Construction.wildcardSet.contains b = true ↔ b ≠ 0x0a := by
  have stored : Construction.wildcardSet.bits.getLsbD b.toNat = decide (10 = b.toNat) := by
    simp [Construction.wildcardSet, ByteSet.setNegated, ByteSet.add, ByteSet.empty,
      BitVec.getLsbD_twoPow]
  have same : b = 0x0a ↔ 10 = b.toNat := by
    rw [← UInt8.toNat_inj, eq_comm]
    rfl
  rw [ByteSet.contains, stored, Ne, same]
  simp [Construction.wildcardSet, ByteSet.setNegated]

theorem contains_any (b : UInt8) : ByteSet.any.contains b = true := by
  simp [ByteSet.contains, ByteSet.any]

namespace Automaton

variable {m : Automaton} {haystack : List UInt8}

theorem run_of_operand {item : Operand} {lo i j exit : Nat}
    (held : m.Holds lo (item.front id lo ++ [item.final exit])) (span : item.Spans haystack i j) :
    ReflTransGen (m.Step haystack) (lo, i) (exit, j) := by
  cases item with
  | literal c =>
    obtain ⟨reads, rfl⟩ := span
    rw [← encode_eq_append] at reads
    have run := run_of_chain held reads
    have pos := c.utf8Size_pos
    rw [List.length_dropLast, String.length_utf8EncodeChar, Nat.add_assoc,
      Nat.sub_add_cancel pos] at run
    exact run
  | charClass text =>
    obtain ⟨⟨b, byte, member⟩, rfl⟩ := span
    exact .single (.read held.head byte member)
  | wildcard =>
    obtain ⟨⟨b, byte, other⟩, rfl⟩ := span
    exact .single (.read held.head byte ((contains_wildcardSet b).2 other))
  | anchor place =>
    obtain ⟨holds, rfl⟩ := span
    exact .single (.pass held.head holds)

theorem AcceptsIn.operand {item : Operand} {lo i exit n : Nat}
    (run : m.AcceptsIn haystack n (lo, i)) (accepting : m.nodes[m.accept]? = some .accept)
    (held : m.Holds lo (item.front id lo ++ [item.final exit])) :
    ∃ j n', n' < n ∧ item.Spans haystack i j ∧ m.AcceptsIn haystack n' (exit, j) := by
  cases item with
  | literal c =>
    obtain ⟨reads, n', fewer, rest⟩ := run.chain accepting held
    have pos := c.utf8Size_pos
    rw [encode_eq_append] at reads
    rw [List.length_dropLast, String.length_utf8EncodeChar, Nat.add_assoc,
      Nat.sub_add_cancel pos] at rest
    exact ⟨_, n', fewer, ⟨reads, rfl⟩, rest⟩
  | charClass text =>
    obtain ⟨n', b, rfl, byte, member, rest⟩ := run.read accepting held.head
    exact ⟨_, n', Nat.lt_succ_self n', ⟨⟨b, byte, member⟩, rfl⟩, rest⟩
  | wildcard =>
    obtain ⟨n', b, rfl, byte, member, rest⟩ := run.read accepting held.head
    exact ⟨_, n', Nat.lt_succ_self n', ⟨⟨b, byte, (contains_wildcardSet b).1 member⟩, rfl⟩, rest⟩
  | anchor place =>
    obtain ⟨n', rfl, holds, rest⟩ := run.pass accepting held.head
    exact ⟨_, n', Nat.lt_succ_self n', ⟨holds, rfl⟩, rest⟩

theorem run_of_loop {body : Nat → Nat → Prop} {split entry exit : Nat}
    (node : m.nodes[split]? = some (.split entry exit))
    (once : ∀ {i j}, body i j → ReflTransGen (m.Step haystack) (entry, i) (split, j))
    {i j : Nat} (spans : ReflTransGen body i j) :
    ReflTransGen (m.Step haystack) (split, i) (exit, j) := by
  induction spans using ReflTransGen.head_induction_on with
  | refl => exact .single (.second node)
  | head first _ ih => exact .head (.first node) ((once first).trans ih)

theorem AcceptsIn.loop {body : Nat → Nat → Prop} {split entry exit : Nat}
    (accepting : m.nodes[m.accept]? = some .accept)
    (node : m.nodes[split]? = some (.split entry exit))
    (once : ∀ {n i}, m.AcceptsIn haystack n (entry, i) →
      ∃ j n', n' ≤ n ∧ body i j ∧ m.AcceptsIn haystack n' (split, j))
    {n i : Nat} (run : m.AcceptsIn haystack n (split, i)) :
    ∃ j n', n' < n ∧ ReflTransGen body i j ∧ m.AcceptsIn haystack n' (exit, j) := by
  -- a body that reads nothing comes back to the same place, so the induction is on the count of steps
  induction n using Nat.strongRecOn generalizing i with
  | ind n ih =>
    obtain ⟨n₁, rfl, again | leave⟩ := run.branch accepting node
    · obtain ⟨k, n₂, fewer, first, rest⟩ := once again
      obtain ⟨j, n₃, fewer', others, rest'⟩ := ih n₂ (Nat.lt_succ_of_le fewer) rest
      exact ⟨j, n₃, by omega, .head first others, rest'⟩
    · exact ⟨i, n₁, Nat.lt_succ_self n₁, .refl, leave⟩

/-- Every span of an expression has a run from its entry to its exit. -/
theorem run_of_spans (e : Expr) {lo i j exit : Nat} (held : m.Holds lo (e.layout id lo exit))
    (span : e.Spans haystack i j) : ReflTransGen (m.Step haystack) (e.entry lo, i) (exit, j) := by
  induction e generalizing lo i j exit with
  | operand item => exact run_of_operand held span
  | repeated op body ih =>
    have node := held.right.head
    rw [Expr.length_layout] at node
    have once {i j} (span : body.Spans haystack i j) := ih held.left span
    cases op with
    | star => exact run_of_loop node once span.1
    | plus =>
      obtain ⟨k, first, rest⟩ := TransGen.head'_iff.1 span
      exact (once first).trans (run_of_loop node once rest)
    | option =>
      obtain ⟨rfl, -⟩ | span := span
      · exact .single (.second node)
      · exact .head (.first node) (once span)
  | concat left right ihl ihr =>
    obtain ⟨k, first, second⟩ := span
    have after := held.right
    rw [Expr.length_layout] at after
    exact (ihl held.left first).trans (ihr after second)
  | alternate left right ihl ihr =>
    have after := held.left.right
    have node := held.right.head
    rw [Expr.length_layout] at after
    rw [List.length_append, Expr.length_layout, Expr.length_layout, ← Nat.add_assoc] at node
    obtain first | second := span
    · exact .head (.first node) (ihl held.left.left first)
    · exact .head (.second node) (ihr after second)

/-- A run that accepts from the entry of an expression goes through one of its spans. -/
theorem AcceptsIn.spans (e : Expr) {lo i exit n : Nat}
    (run : m.AcceptsIn haystack n (e.entry lo, i)) (accepting : m.nodes[m.accept]? = some .accept)
    (held : m.Holds lo (e.layout id lo exit)) :
    ∃ j n', n' ≤ n ∧ e.Spans haystack i j ∧ m.AcceptsIn haystack n' (exit, j) := by
  induction e generalizing lo i exit n with
  | operand item =>
    obtain ⟨j, n', fewer, span, rest⟩ := run.operand accepting held
    exact ⟨j, n', Nat.le_of_lt fewer, span, rest⟩
  | repeated op body ih =>
    have node := held.right.head
    rw [Expr.length_layout] at node
    cases op with
    | star =>
      -- a run is shorter after each time around, so it leaves the loop in the end
      have once {n i} (run : m.AcceptsIn haystack n (body.entry lo, i)) := ih run held.left
      obtain ⟨j, n', fewer, spans, rest⟩ := AcceptsIn.loop accepting node once run
      exact ⟨j, n', Nat.le_of_lt fewer, ⟨spans, run.place_le⟩, rest⟩
    | plus =>
      have once {n i} (run : m.AcceptsIn haystack n (body.entry lo, i)) := ih run held.left
      obtain ⟨k, n₁, fewer, first, rest⟩ := once run
      obtain ⟨j, n₂, fewer', others, rest'⟩ := AcceptsIn.loop accepting node once rest
      exact ⟨j, n₂, by omega, TransGen.head'_iff.2 ⟨k, first, others⟩, rest'⟩
    | option =>
      obtain ⟨n₁, rfl, through | past⟩ := run.branch accepting node
      · obtain ⟨j, n₂, fewer, span, rest⟩ := ih through held.left
        exact ⟨j, n₂, by omega, .inr span, rest⟩
      · exact ⟨i, n₁, Nat.le_succ n₁, .inl ⟨rfl, run.place_le⟩, past⟩
  | concat left right ihl ihr =>
    have after := held.right
    rw [Expr.length_layout] at after
    obtain ⟨k, n₁, fewer, first, rest⟩ := ihl run held.left
    obtain ⟨j, n₂, fewer', second, rest'⟩ := ihr rest after
    exact ⟨j, n₂, by omega, ⟨k, first, second⟩, rest'⟩
  | alternate left right ihl ihr =>
    have after := held.left.right
    have node := held.right.head
    rw [Expr.length_layout] at after
    rw [List.length_append, Expr.length_layout, Expr.length_layout, ← Nat.add_assoc] at node
    obtain ⟨n₁, rfl, first | second⟩ := run.branch accepting node
    · obtain ⟨j, n₂, fewer, span, rest⟩ := ihl first held.left.left
      exact ⟨j, n₂, by omega, .inl span, rest⟩
    · obtain ⟨j, n₂, fewer, span, rest⟩ := ihr second after
      exact ⟨j, n₂, by omega, .inr span, rest⟩

theorem holds_of_nodes {nodes : List (Node Nat)} {start accept : Nat} :
    Holds ⟨nodes.toArray, start, accept⟩ 0 nodes := by
  intro k n found
  rw [Nat.zero_add, List.getElem?_toArray]
  exact found

theorem accepts_iff_exists : m.Accepts haystack ↔ ∃ n, m.AcceptsIn haystack n (m.start, 0) :=
  exists_acceptsIn_iff.symm

theorem run_of_any {any split exit i j : Nat}
    (reads : m.nodes[any]? = some (.consume (.set .any) split))
    (loop : m.nodes[split]? = some (.split any exit)) (order : i ≤ j) (bound : j ≤ haystack.length) :
    ReflTransGen (m.Step haystack) (split, i) (split, j) := by
  induction order with
  | refl => exact .refl
  | @step k order ih =>
    have byte : haystack[k]? = some haystack[k] := List.getElem?_eq_getElem bound
    have around := ih (Nat.le_of_lt bound)
    exact (around.tail (.first loop)).tail (.read reads byte (contains_any _))

theorem AcceptsIn.leave_any {any split exit n i : Nat}
    (accepting : m.nodes[m.accept]? = some .accept)
    (reads : m.nodes[any]? = some (.consume (.set .any) split))
    (loop : m.nodes[split]? = some (.split any exit)) (run : m.AcceptsIn haystack n (split, i)) :
    ∃ j n', m.AcceptsIn haystack n' (exit, j) := by
  have once {n i} (run : m.AcceptsIn haystack n (any, i)) :
      ∃ j n', n' ≤ n ∧ True ∧ m.AcceptsIn haystack n' (split, j) := by
    obtain ⟨n', b, rfl, -, -, rest⟩ := run.read accepting reads
    exact ⟨i + 1, n', Nat.le_succ n', trivial, rest⟩
  obtain ⟨j, n', -, -, rest⟩ := AcceptsIn.loop accepting loop once run
  exact ⟨j, n', rest⟩

end Automaton

namespace Expr

variable {haystack : List UInt8}

theorem accepts_anchored (e : Expr) :
    (e.automaton false).Accepts haystack ↔ e.Spans haystack 0 haystack.length := by
  have accepting := (e.wellFormed_automaton false).accept_iff.2 rfl
  have held : (e.automaton false).Holds 0 (e.layout id 0 e.width ++ [Node.accept]) :=
    Automaton.holds_of_nodes
  constructor
  · intro accepts
    obtain ⟨n, run⟩ := Automaton.accepts_iff_exists.1 accepts
    obtain ⟨j, n', -, span, rest⟩ := Automaton.AcceptsIn.spans e run accepting held.left
    have complete : j = haystack.length := rest.at_accept accepting
    rw [complete] at span
    exact span
  · intro span
    exact Automaton.run_of_spans e held.left span

theorem accepts_unanchored (e : Expr) :
    (e.automaton true).Accepts haystack ↔ ∃ i j, e.Spans haystack i j := by
  have accepting := (e.wellFormed_automaton true).accept_iff.2 rfl
  have held : (e.automaton true).Holds 0 (e.layout id 0 (e.width + 3) ++
      (e.surroundings id (e.width + 4) ++ [Node.accept])) := Automaton.holds_of_nodes
  have outside := held.right.left
  rw [length_layout, Nat.zero_add] at outside
  have before := outside.head
  have enter := outside.tail.head
  have after := outside.tail.tail.head
  have leave := outside.tail.tail.tail.head
  constructor
  · intro accepts
    obtain ⟨n, run⟩ := Automaton.accepts_iff_exists.1 accepts
    obtain ⟨i, n₁, entered⟩ := Automaton.AcceptsIn.leave_any accepting before enter run
    obtain ⟨j, n₂, -, span, -⟩ := Automaton.AcceptsIn.spans e entered accepting held.left
    exact ⟨i, j, span⟩
  · rintro ⟨i, j, span⟩
    have bounds := e.within_spans i j span
    have skip := Automaton.run_of_any before enter (Nat.zero_le i)
      (Nat.le_trans bounds.1 bounds.2)
    have through := Automaton.run_of_spans e held.left span
    have rest := Automaton.run_of_any after leave bounds.2 (Nat.le_refl _)
    exact ((skip.tail (.second enter)).trans through).trans (rest.tail (.second leave))

end Expr

end ByteRegex
