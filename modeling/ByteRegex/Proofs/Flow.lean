import ByteRegex.Proofs.Outcome
import ByteRegex.Proofs.Runs

/-! The transitions of an automaton as a graph, whatever they read or ask for. Every node is on a way from
the start to the accepting node, and only splits lead back. The split of an alternation does so too,
since it stands after its branches, but cycles come from loops alone: without them all transitions rise
in an order of their own. -/

namespace ByteRegex

open Relation

namespace Automaton

def Arc (m : Automaton) (a b : Nat) : Prop :=
  ∃ n, m.nodes[a]? = some n ∧ b ∈ n.targets

def PlainArc (m : Automaton) (a b : Nat) : Prop :=
  ∃ n, m.nodes[a]? = some n ∧ (∀ x y, n ≠ .split x y) ∧ b ∈ n.targets

variable {m : Automaton} {lo exit : Nat}

theorem PlainArc.arc {a b : Nat} (h : m.PlainArc a b) : m.Arc a b := by
  obtain ⟨n, found, -, target⟩ := h
  exact ⟨n, found, target⟩

theorem not_plainArc_split {a b x y : Nat} (node : m.nodes[a]? = some (.split x y)) :
    ¬m.PlainArc a b := by
  rintro ⟨n, found, other, -⟩
  cases node.symm.trans found
  exact other x y rfl

theorem arc_split_iff {a b x y : Nat} (node : m.nodes[a]? = some (.split x y)) :
    m.Arc a b ↔ b = x ∨ b = y := by
  simp [Arc, node, Node.targets]

theorem arc_consume_iff {a b next : Nat} {label : Label}
    (node : m.nodes[a]? = some (.consume label next)) : m.Arc a b ↔ b = next := by
  simp [Arc, node, Node.targets]

theorem not_transGen_self {arc : Nat → Nat → Prop} (rank : Nat → Nat)
    (ascends : ∀ a b, arc a b → rank a < rank b) (a : Nat) : ¬TransGen arc a a := by
  intro cycle
  have climbs {b : Nat} (path : TransGen arc a b) : rank a < rank b := by
    induction path with
    | single last => exact ascends _ _ last
    | tail _ last ih => exact Nat.lt_trans ih (ascends _ _ last)
  exact Nat.lt_irrefl _ (climbs cycle)

end Automaton

theorem getElem?_chain {τ : Type} (known : Nat → τ) (bytes : List UInt8) (lo k : Nat) :
    (chain known bytes lo)[k]? =
      bytes[k]?.map fun b => .consume (.byte b) (known (lo + k + 1)) := by
  induction bytes generalizing lo k with
  | nil => simp [chain]
  | cons b bytes ih =>
    cases k with
    | zero => rfl
    | succ k => simp [chain, ih, Nat.add_assoc, Nat.add_comm 1 k]

namespace Operand

open Automaton

variable {m : Automaton} {lo exit : Nat} {item : Operand}

theorem targets_final (item : Operand) (exit : Nat) : (item.final exit).targets = [exit] := by
  cases item <;> rfl

theorem exists_node (held : m.Holds lo (item.front id lo ++ [item.final exit])) {k : Nat}
    (bound : k ≤ item.lead) : ∃ n, m.nodes[lo + k]? = some n ∧ (∀ x y, n ≠ .split x y) ∧
      n.targets = [if k < item.lead then lo + k + 1 else exit] := by
  by_cases inner : k < item.lead
  · rw [if_pos inner]
    cases item with
    | literal c =>
      have found := held.left k
      rw [front, getElem?_chain] at found
      have short : k < (String.utf8EncodeChar c).dropLast.length := by
        rwa [List.length_dropLast, String.length_utf8EncodeChar]
      rw [List.getElem?_eq_getElem short] at found
      exact ⟨_, found _ rfl, by simp, rfl⟩
    | charClass | wildcard | anchor => cases inner
  · have last := held.right.head
    have place : k = item.lead := by omega
    rw [length_front, ← place] at last
    rw [if_neg inner]
    refine ⟨_, last, ?_, targets_final item exit⟩
    cases item <;> simp [final]

theorem path (held : m.Holds lo (item.front id lo ++ [item.final exit])) {j k : Nat} (order : j ≤ k)
    (bound : k ≤ item.lead) : ReflTransGen m.Arc (lo + j) (lo + k) := by
  induction order with
  | refl => exact .refl
  | @step k _ ih =>
    obtain ⟨n, found, -, targets⟩ := exists_node held (Nat.le_of_lt bound)
    rw [if_pos (Nat.lt_of_succ_le bound)] at targets
    exact (ih (Nat.le_of_lt bound)).tail ⟨n, found, by simp [targets, Nat.add_assoc]⟩

theorem leaves (held : m.Holds lo (item.front id lo ++ [item.final exit])) :
    m.Arc (lo + item.lead) exit := by
  obtain ⟨n, found, -, targets⟩ := exists_node held (Nat.le_refl _)
  rw [if_neg (Nat.lt_irrefl _)] at targets
  exact ⟨n, found, by simp [targets]⟩

end Operand

namespace Expr

open Automaton

variable {m : Automaton} {lo exit : Nat}

variable {op : Repetition} {body left right : Expr}

theorem repeated_node (held : m.Holds lo ((repeated op body).layout id lo exit)) :
    m.nodes[lo + body.width]? = some (.split (body.entry lo) exit) := by
  have node := held.right.head
  rwa [length_layout] at node

theorem concat_right (held : m.Holds lo ((concat left right).layout id lo exit)) :
    m.Holds (lo + left.width) (right.layout id (lo + left.width) exit) := by
  have after := held.right
  rwa [length_layout] at after

theorem alternate_right (held : m.Holds lo ((alternate left right).layout id lo exit)) :
    m.Holds (lo + left.width) (right.layout id (lo + left.width) exit) := by
  have after := held.left.right
  rwa [length_layout] at after

theorem alternate_node (held : m.Holds lo ((alternate left right).layout id lo exit)) :
    m.nodes[lo + left.width + right.width]? =
      some (.split (left.entry lo) (right.entry (lo + left.width))) := by
  have node := held.right.head
  rwa [List.length_append, length_layout, length_layout, ← Nat.add_assoc] at node

theorem place_repeated {a : Nat} (high : a < lo + (repeated op body).width) :
    a < lo + body.width ∨ a = lo + body.width := by
  rw [width] at high
  omega

theorem place_concat {a : Nat} (high : a < lo + (concat left right).width) :
    a < lo + left.width ∨ lo + left.width ≤ a ∧ a < lo + left.width + right.width := by
  rw [width] at high
  omega

theorem place_alternate {a : Nat} (high : a < lo + (alternate left right).width) :
    a < lo + left.width ∨ (lo + left.width ≤ a ∧ a < lo + left.width + right.width) ∨
      a = lo + left.width + right.width := by
  rw [width] at high
  omega

theorem leads_to_exit (e : Expr) (held : m.Holds lo (e.layout id lo exit)) {a : Nat} (low : lo ≤ a)
    (high : a < lo + e.width) : ReflTransGen m.Arc a exit := by
  induction e generalizing lo exit a with
  | operand item =>
    obtain ⟨k, rfl⟩ := Nat.exists_eq_add_of_le low
    rw [width] at high
    exact (Operand.path held (by omega) (Nat.le_refl _)).tail (Operand.leaves held)
  | repeated op body ih =>
    have leave := (arc_split_iff (repeated_node held)).2 (.inr rfl)
    obtain inner | rfl := place_repeated high
    · have through := ih held.left low inner
      cases op with
      | star | plus => exact through.tail leave
      | option => exact through
    · exact .single leave
  | concat left right ihl ihr =>
    have after := concat_right held
    obtain first | ⟨low, high⟩ := place_concat high
    · have entry := right.entry_bounds (lo + left.width)
      exact (ihl held.left low first).trans (ihr after entry.1 entry.2)
    · exact ihr after low high
  | alternate left right ihl ihr =>
    obtain first | ⟨low, high⟩ | rfl := place_alternate high
    · exact ihl held.left.left low first
    · exact ihr (alternate_right held) low high
    · have entry := left.entry_bounds lo
      have enter := (arc_split_iff (alternate_node held)).2 (.inl rfl)
      exact .head enter (ihl held.left.left entry.1 entry.2)

theorem entry_leads (e : Expr) (held : m.Holds lo (e.layout id lo exit)) {a : Nat} (low : lo ≤ a)
    (high : a < lo + e.width) : ReflTransGen m.Arc (e.entry lo) a := by
  induction e generalizing lo exit a with
  | operand item =>
    obtain ⟨k, rfl⟩ := Nat.exists_eq_add_of_le low
    rw [width] at high
    exact Operand.path held (Nat.zero_le k) (by omega)
  | repeated op body ih =>
    have enter := (arc_split_iff (repeated_node held)).2 (.inl rfl)
    obtain inner | rfl := place_repeated high
    · have through := ih held.left low inner
      cases op with
      | star | option => exact .head enter through
      | plus => exact through
    · cases op with
      | star | option => exact .refl
      | plus =>
        have entry := body.entry_bounds lo
        exact body.leads_to_exit held.left entry.1 entry.2
  | concat left right ihl ihr =>
    have entry := left.entry_bounds lo
    obtain first | ⟨low, high⟩ := place_concat high
    · exact ihl held.left low first
    · exact (left.leads_to_exit held.left entry.1 entry.2).trans (ihr (concat_right held) low high)
  | alternate left right ihl ihr =>
    have node := alternate_node held
    obtain first | ⟨low, high⟩ | rfl := place_alternate high
    · exact .head ((arc_split_iff node).2 (.inl rfl)) (ihl held.left.left low first)
    · exact .head ((arc_split_iff node).2 (.inr rfl)) (ihr (alternate_right held) low high)
    · exact .refl

theorem lt_of_plainArc (e : Expr) (held : m.Holds lo (e.layout id lo exit))
    (beyond : lo + e.width ≤ exit) {a b : Nat} (low : lo ≤ a) (high : a < lo + e.width)
    (arc : m.PlainArc a b) : a < b := by
  induction e generalizing lo exit with
  | operand item =>
    obtain ⟨k, rfl⟩ := Nat.exists_eq_add_of_le low
    rw [width] at high beyond
    obtain ⟨n, found, -, targets⟩ := Operand.exists_node held (k := k) (by omega)
    obtain ⟨n', found', -, target⟩ := arc
    cases found.symm.trans found'
    rw [targets, List.mem_singleton] at target
    rw [target]
    split <;> omega
  | repeated op body ih =>
    obtain inner | rfl := place_repeated high
    · rw [width] at beyond
      refine ih held.left ?_ low inner
      cases op <;> simp only [loopExit, id] <;> omega
    · exact absurd arc (not_plainArc_split (repeated_node held))
  | concat left right ihl ihr =>
    rw [width, ← Nat.add_assoc] at beyond
    obtain first | ⟨low, high⟩ := place_concat high
    · exact ihl held.left (right.entry_bounds _).1 low first
    · exact ihr (concat_right held) beyond low high
  | alternate left right ihl ihr =>
    rw [width] at beyond
    obtain first | ⟨low, high⟩ | rfl := place_alternate high
    · exact ihl held.left.left (by omega) low first
    · exact ihr (alternate_right held) (by omega) low high
    · exact absurd arc (not_plainArc_split (alternate_node held))

/-- The place of a node in an order along which the nodes of an expression without loops lead. Splits
stand before what they choose between. -/
def rank (lo a : Nat) : Expr → Nat
  | operand _ => a - lo
  | repeated _ body => if a < lo + body.width then body.rank lo a + 1 else 0
  | concat left right =>
    if a < lo + left.width then left.rank lo a else left.width + right.rank (lo + left.width) a
  | alternate left right =>
    if a < lo + left.width then left.rank lo a + 1
    else if a < lo + left.width + right.width then right.rank (lo + left.width) a + 1
    else 0

theorem rank_lt (e : Expr) {a : Nat} (low : lo ≤ a) (high : a < lo + e.width) :
    e.rank lo a < e.width := by
  induction e generalizing lo with
  | operand item =>
    rw [width] at high
    rw [rank, width]
    omega
  | repeated op body ih =>
    rw [rank, width]
    split
    case isTrue inner => exact Nat.succ_lt_succ (ih low inner)
    case isFalse => exact Nat.succ_pos _
  | concat left right ihl ihr =>
    rw [rank, width]
    obtain first | ⟨low', high⟩ := place_concat high
    · rw [if_pos first]
      exact Nat.lt_add_right _ (ihl low first)
    · rw [if_neg (Nat.not_lt.2 low')]
      exact Nat.add_lt_add_left (ihr low' high) _
  | alternate left right ihl ihr =>
    rw [rank, width]
    obtain first | ⟨low', high⟩ | rfl := place_alternate high
    · have inside := ihl low first
      rw [if_pos first]
      omega
    · have inside := ihr low' high
      rw [if_neg (Nat.not_lt.2 low'), if_pos high]
      omega
    · rw [if_neg (by omega), if_neg (Nat.lt_irrefl _)]
      exact Nat.succ_pos _

def LoopFree (e : Expr) : Prop :=
  ∀ op, Symbol.repetition op ∈ e.symbols → op = .option

theorem LoopFree.of_repeated (h : (repeated op body).LoopFree) : op = .option ∧ body.LoopFree := by
  refine ⟨h op (by simp), fun op' member => h op' ?_⟩
  rw [symbols_repeated]
  exact List.mem_append_left _ member

theorem LoopFree.of_concat (h : (concat left right).LoopFree) : left.LoopFree ∧ right.LoopFree := by
  simp only [LoopFree, symbols_concat, List.mem_append] at h
  exact ⟨fun op member => h op (.inl (.inl member)), fun op member => h op (.inl (.inr member))⟩

theorem LoopFree.of_alternate (h : (alternate left right).LoopFree) :
    left.LoopFree ∧ right.LoopFree := by
  simp only [LoopFree, symbols_alternate, List.mem_append] at h
  exact ⟨fun op member => h op (.inl (.inl member)), fun op member => h op (.inl (.inr member))⟩

/-- A node of an expression without loops leads to nodes of a higher rank and to the exit. -/
theorem rank_lt_of_arc (e : Expr) (free : e.LoopFree) (held : m.Holds lo (e.layout id lo exit))
    {a b : Nat} (low : lo ≤ a) (high : a < lo + e.width) (arc : m.Arc a b) :
    b = exit ∨ (lo ≤ b ∧ b < lo + e.width) ∧ e.rank lo a < e.rank lo b := by
  -- without loops a split only leads forward, to nodes that rank above it
  induction e generalizing lo exit a with
  | operand item =>
    obtain ⟨k, rfl⟩ := Nat.exists_eq_add_of_le low
    rw [width] at high
    obtain ⟨n, found, -, targets⟩ := Operand.exists_node held (k := k) (by omega)
    obtain ⟨n', found', target⟩ := arc
    cases found.symm.trans found'
    rw [targets, List.mem_singleton] at target
    split at target
    case isTrue inner =>
      refine .inr ⟨?_, ?_⟩
      · rw [width]
        omega
      · rw [rank, rank]
        omega
    case isFalse => exact .inl target
  | repeated op body ih =>
    obtain ⟨rfl, inside⟩ := free.of_repeated
    obtain inner | rfl := place_repeated high
    · obtain leave | ⟨within, higher⟩ := ih inside held.left low inner arc
      · exact .inl leave
      · refine .inr ⟨⟨within.1, Nat.lt_succ_of_lt within.2⟩, ?_⟩
        rw [rank, rank, if_pos inner, if_pos within.2]
        exact Nat.succ_lt_succ higher
    · obtain rfl | rfl := (arc_split_iff (repeated_node held)).1 arc
      · have entry := body.entry_bounds lo
        refine .inr ⟨⟨entry.1, Nat.lt_succ_of_lt entry.2⟩, ?_⟩
        rw [rank, rank, if_neg (Nat.lt_irrefl _), if_pos entry.2]
        exact Nat.succ_pos _
      · exact .inl rfl
  | concat left right ihl ihr =>
    obtain ⟨freel, freer⟩ := free.of_concat
    have wide : lo + (concat left right).width = lo + left.width + right.width := by
      rw [width, Nat.add_assoc]
    rw [wide]
    obtain first | ⟨low', high'⟩ := place_concat high
    · obtain rfl | ⟨within, higher⟩ := ihl freel held.left low first arc
      · -- the entry of the second part ranks above all of the first
        have entry := right.entry_bounds (lo + left.width)
        have lower := left.rank_lt low first
        refine .inr ⟨⟨Nat.le_trans (Nat.le_add_right _ _) entry.1, entry.2⟩, ?_⟩
        rw [rank, rank, if_pos first, id, if_neg (Nat.not_lt.2 entry.1)]
        exact Nat.lt_add_right _ lower
      · refine .inr ⟨⟨within.1, Nat.lt_add_right _ within.2⟩, ?_⟩
        rw [rank, rank, if_pos first, if_pos within.2]
        exact higher
    · obtain leave | ⟨within, higher⟩ := ihr freer (concat_right held) low' high' arc
      · exact .inl leave
      · refine .inr ⟨⟨Nat.le_trans (Nat.le_add_right _ _) within.1, within.2⟩, ?_⟩
        rw [rank, rank, if_neg (Nat.not_lt.2 low'), if_neg (Nat.not_lt.2 within.1)]
        exact Nat.add_lt_add_left higher _
  | alternate left right ihl ihr =>
    obtain ⟨freel, freer⟩ := free.of_alternate
    have wide : lo + (alternate left right).width = lo + left.width + right.width + 1 := by
      rw [width, Nat.add_assoc, Nat.add_assoc, Nat.add_assoc]
    rw [wide]
    obtain first | ⟨low', high'⟩ | rfl := place_alternate high
    · obtain leave | ⟨within, higher⟩ := ihl freel held.left.left low first arc
      · exact .inl leave
      · refine .inr ⟨⟨within.1, by omega⟩, ?_⟩
        rw [rank, rank, if_pos first, if_pos within.2]
        exact Nat.succ_lt_succ higher
    · obtain leave | ⟨within, higher⟩ := ihr freer (alternate_right held) low' high' arc
      · exact .inl leave
      · refine .inr ⟨⟨by omega, Nat.lt_succ_of_lt within.2⟩, ?_⟩
        rw [rank, rank, if_neg (Nat.not_lt.2 low'), if_pos high', if_neg (Nat.not_lt.2 within.1),
          if_pos within.2]
        exact Nat.succ_lt_succ higher
    · have least : (alternate left right).rank lo (lo + left.width + right.width) = 0 := by
        rw [rank, if_neg (by omega), if_neg (Nat.lt_irrefl _)]
      rw [least]
      obtain rfl | rfl := (arc_split_iff (alternate_node held)).1 arc
      · have entry := left.entry_bounds lo
        refine .inr ⟨⟨entry.1, by omega⟩, ?_⟩
        rw [rank, if_pos entry.2]
        exact Nat.succ_pos _
      · have entry := right.entry_bounds (lo + left.width)
        refine .inr ⟨⟨by omega, Nat.lt_succ_of_lt entry.2⟩, ?_⟩
        rw [rank, if_neg (Nat.not_lt.2 entry.1), if_pos entry.2]
        exact Nat.succ_pos _

end Expr

/-- How the nodes of an automaton hang together. The accepting node is the last one, every node lies on
a way from the start to it, and nodes that are no splits lead on. -/
structure Automaton.Connected (m : Automaton) : Prop extends m.WellFormed where
  size_eq : m.size = m.accept + 1
  from_start : ∀ {a : Nat}, a < m.size → ReflTransGen m.Arc m.start a
  to_accept : ∀ {a : Nat}, a < m.size → ReflTransGen m.Arc a m.accept
  lt_of_plainArc : ∀ {a b : Nat}, m.PlainArc a b → a < b

namespace Automaton

theorem Arc.lt_size {m : Automaton} {a b : Nat} (h : m.Arc a b) : a < m.size := by
  obtain ⟨n, found, -⟩ := h
  exact (Array.getElem?_eq_some_iff.1 found).1

theorem not_arc_accept {m : Automaton} {a b : Nat} (node : m.nodes[a]? = some .accept) :
    ¬m.Arc a b := by
  rintro ⟨n, found, target⟩
  cases node.symm.trans found
  cases target

theorem Connected.not_transGen_plainArc {m : Automaton} (h : m.Connected) (a : Nat) :
    ¬TransGen m.PlainArc a a :=
  not_transGen_self id (fun _ _ arc => h.lt_of_plainArc arc) a

end Automaton

namespace Expr

open Automaton

theorem size_automaton (e : Expr) (unanchored : Bool) :
    (e.automaton unanchored).size = e.width + if unanchored then 5 else 1 := by
  cases unanchored <;> simp [automaton, Automaton.size, surroundings]

theorem connected_anchored (e : Expr) : (e.automaton false).Connected := by
  have wellFormed := e.wellFormed_automaton false
  have held : (e.automaton false).Holds 0 (e.layout id 0 e.width ++ [Node.accept]) := holds_of_nodes
  have size : (e.automaton false).size = e.width + 1 := e.size_automaton false
  have entry := e.entry_bounds 0
  have inside {a : Nat} (bound : a < (e.automaton false).size) : a < e.width ∨ a = e.width := by omega
  refine ⟨wellFormed, size, ?_, ?_, ?_⟩
  · intro a bound
    obtain inner | rfl := inside bound
    · exact e.entry_leads held.left (Nat.zero_le a) (by omega)
    · exact e.leads_to_exit held.left entry.1 entry.2
  · intro a bound
    obtain inner | rfl := inside bound
    · exact e.leads_to_exit held.left (Nat.zero_le a) (by omega)
    · exact .refl
  · intro a b arc
    obtain inner | rfl := inside arc.arc.lt_size
    · exact e.lt_of_plainArc held.left (by omega) (Nat.zero_le a) (by omega) arc
    · exact absurd arc.arc (not_arc_accept (wellFormed.accept_iff.2 rfl))

theorem surrounding_nodes (e : Expr) :
    (e.automaton true).nodes[e.width]? = some (.consume (.set .any) (e.width + 1)) ∧
    (e.automaton true).nodes[e.width + 1]? = some (.split e.width (e.entry 0)) ∧
    (e.automaton true).nodes[e.width + 2]? = some (.consume (.set .any) (e.width + 3)) ∧
    (e.automaton true).nodes[e.width + 3]? = some (.split (e.width + 2) (e.width + 4)) := by
  have held : (e.automaton true).Holds 0 (e.layout id 0 (e.width + 3) ++
      (e.surroundings id (e.width + 4) ++ [Node.accept])) := holds_of_nodes
  have outside := held.right.left
  rw [length_layout, Nat.zero_add] at outside
  exact ⟨outside.head, outside.tail.head, outside.tail.tail.head, outside.tail.tail.tail.head⟩

theorem connected_unanchored (e : Expr) : (e.automaton true).Connected := by
  have wellFormed := e.wellFormed_automaton true
  have held : (e.automaton true).Holds 0 (e.layout id 0 (e.width + 3) ++
      (e.surroundings id (e.width + 4) ++ [Node.accept])) := holds_of_nodes
  have size : (e.automaton true).size = e.width + 5 := e.size_automaton true
  have entry := e.entry_bounds 0
  obtain ⟨before, enter, after, leave⟩ := e.surrounding_nodes
  have inside {a : Nat} (bound : a < (e.automaton true).size) : a < e.width ∨ a = e.width ∨
      a = e.width + 1 ∨ a = e.width + 2 ∨ a = e.width + 3 ∨ a = e.width + 4 := by omega
  -- every way from the loop before the expression to the end goes through it and the loop after it
  have begins := (arc_split_iff enter).2 (.inr rfl)
  have ends := (arc_split_iff leave).2 (.inr rfl)
  have across : ReflTransGen (e.automaton true).Arc (e.width + 1) (e.width + 3) :=
    .head begins (e.leads_to_exit held.left entry.1 entry.2)
  refine ⟨wellFormed, size, ?_, ?_, ?_⟩
  · intro a bound
    obtain inner | rfl | rfl | rfl | rfl | rfl := inside bound
    · exact .head begins (e.entry_leads held.left (Nat.zero_le a) (by omega))
    · exact .single ((arc_split_iff enter).2 (.inl rfl))
    · exact .refl
    · exact across.tail ((arc_split_iff leave).2 (.inl rfl))
    · exact across
    · exact across.tail ends
  · intro a bound
    obtain inner | rfl | rfl | rfl | rfl | rfl := inside bound
    · exact (e.leads_to_exit held.left (Nat.zero_le a) (by omega)).tail ends
    · exact .head ((arc_consume_iff before).2 rfl) (across.tail ends)
    · exact across.tail ends
    · exact .head ((arc_consume_iff after).2 rfl) (.single ends)
    · exact .single ends
    · exact .refl
  · intro a b arc
    obtain inner | rfl | rfl | rfl | rfl | rfl := inside arc.arc.lt_size
    · exact e.lt_of_plainArc held.left (by omega) (Nat.zero_le a) (by omega) arc
    · rw [(arc_consume_iff before).1 arc.arc]
      exact Nat.lt_succ_self _
    · exact absurd arc (not_plainArc_split enter)
    · rw [(arc_consume_iff after).1 arc.arc]
      exact Nat.lt_succ_self _
    · exact absurd arc (not_plainArc_split leave)
    · exact absurd arc.arc (not_arc_accept (wellFormed.accept_iff.2 rfl))

theorem connected_automaton (e : Expr) (unanchored : Bool) : (e.automaton unanchored).Connected := by
  cases unanchored with
  | false => exact e.connected_anchored
  | true => exact e.connected_unanchored

theorem not_transGen_arc (e : Expr) (free : e.LoopFree) (a : Nat) :
    ¬TransGen (e.automaton false).Arc a a := by
  have held : (e.automaton false).Holds 0 (e.layout id 0 e.width ++ [Node.accept]) := holds_of_nodes
  have size := e.connected_anchored.size_eq
  have accept : (e.automaton false).accept = e.width := rfl
  refine not_transGen_self (fun a => if a < e.width then e.rank 0 a else e.width) ?_ a
  intro a b arc
  have bound := arc.lt_size
  by_cases inner : a < e.width
  · rw [if_pos inner]
    have high : a < 0 + e.width := by rwa [Nat.zero_add]
    obtain rfl | ⟨within, higher⟩ := e.rank_lt_of_arc free held.left (Nat.zero_le a) high arc
    · rw [if_neg (Nat.lt_irrefl _)]
      exact e.rank_lt (Nat.zero_le a) high
    · rw [Nat.zero_add] at within
      rw [if_pos within.2]
      exact higher
  · have last : a = (e.automaton false).accept := by omega
    exact absurd arc (not_arc_accept (e.connected_anchored.accept_iff.2 last))

end Expr

namespace Construction

variable {c : Construction} {symbols : List Symbol} {m : Automaton}

theorem size_of_ofSymbols (built : c.ofSymbols symbols = .ok m) : m.size = c.count symbols := by
  obtain ⟨e, reduced, rfl⟩ := ofSymbols_eq built
  rw [e.size_automaton, count, costs_eq_width reduced]

theorem connected_of_ofSymbols (built : c.ofSymbols symbols = .ok m) : m.Connected := by
  obtain ⟨e, -, rfl⟩ := ofSymbols_eq built
  exact e.connected_automaton c.unanchored

theorem not_transGen_arc_of_ofSymbols (built : c.ofSymbols symbols = .ok m)
    (anchored : c.unanchored = false) (star : .repetition .star ∉ symbols)
    (plus : .repetition .plus ∉ symbols) (a : Nat) : ¬TransGen m.Arc a a := by
  obtain ⟨e, reduced, rfl⟩ := ofSymbols_eq built
  have same := Symbol.reduce_eq_iff.1 reduced
  rw [anchored]
  refine e.not_transGen_arc (fun op member => ?_) a
  rw [← same] at member
  cases op with
  | star => exact absurd member star
  | plus => exact absurd member plus
  | option => rfl

/-- Building from any symbols, without a limit on nodes. Unless there are not enough node numbers, which
the nodes of the symbols have to exceed, it gives an automaton if the symbols reduce to one expression
and finds them malformed if not. The automaton has the nodes of the symbols, it is connected, no cycle
avoids its splits, and where nothing repeats there is none at all. -/
theorem outcome_of_symbols (c : Construction) (symbols : List Symbol) (unlimited : c.sizeLimit = none) :
    (c.count symbols ≤ NodeId.maxCount →
      ∀ given limit, c.ofSymbols symbols ≠ .error (.tooManyNodes given limit)) ∧
    ((∀ given limit, c.ofSymbols symbols ≠ .error (.tooManyNodes given limit)) →
      ((∃ m, c.ofSymbols symbols = .ok m) ↔ ∃ e, symbols.foldlM Symbol.reduce [] = some [e]) ∧
      ((∀ e, symbols.foldlM Symbol.reduce [] ≠ some [e]) → c.ofSymbols symbols =
        .error (.malformedSymbols ((symbols.foldlM Symbol.reduce []).elim 0 List.length)))) ∧
    (∀ node, c.ofSymbols symbols ≠ .error (.filledTarget node) ∧
      c.ofSymbols symbols ≠ .error (.danglingTarget node)) ∧
    ∀ m, c.ofSymbols symbols = .ok m → m.size = c.count symbols ∧ m.Connected ∧
      (∀ a, ¬TransGen m.PlainArc a a) ∧
      (c.unanchored = false → .repetition .star ∉ symbols → .repetition .plus ∉ symbols →
        ∀ a, ¬TransGen m.Arc a a) := by
  have capacity : c.capacity = NodeId.maxCount := by rw [Construction.capacity, unlimited]
  refine ⟨?_, ?_, ?_, ?_⟩
  · intro fits given limit tooMany
    obtain ⟨e, -, result⟩ | ⟨-, result⟩ | ⟨exceeds, -⟩ := c.ofSymbols_outcome symbols
    · cases result.symm.trans tooMany
    · cases result.symm.trans tooMany
    · omega
  · intro enough
    obtain ⟨e, reduced, result⟩ | ⟨other, result⟩ | ⟨-, result⟩ := c.ofSymbols_outcome symbols
    · exact ⟨⟨fun _ => ⟨e, reduced⟩, fun _ => ⟨_, result⟩⟩, fun other => absurd reduced (other e)⟩
    · refine ⟨⟨?_, ?_⟩, fun _ => result⟩
      · rintro ⟨m, built⟩
        cases result.symm.trans built
      · rintro ⟨e, reduced⟩
        exact absurd reduced (other e)
    · exact absurd result (enough _ _)
  · intro node
    obtain ⟨e, -, result⟩ | ⟨-, result⟩ | ⟨-, result⟩ := c.ofSymbols_outcome symbols <;>
      rw [result] <;> simp [overflow]
  · intro m built
    have connected := connected_of_ofSymbols built
    exact ⟨size_of_ofSymbols built, connected, connected.not_transGen_plainArc,
      not_transGen_arc_of_ofSymbols built⟩

theorem outcome_of_symbols_of_branches :
    ({} : Construction).sizeLimit = none ∧ ∃ m, ({} : Construction).ofSymbols
        [.operand (.literal 'a'), .operand (.literal 'é'), .alternate, .repetition .option] = .ok m ∧
      m.size = 6 ∧ m.Connected ∧ ∀ a, ¬TransGen m.Arc a a := by
  obtain ⟨enough, ends, -, shape⟩ := outcome_of_symbols {} [.operand (.literal 'a'),
    .operand (.literal 'é'), .alternate, .repetition .option] rfl
  obtain ⟨m, built⟩ := (ends (enough (by decide))).1.2 ⟨_, rfl⟩
  obtain ⟨size, connected, -, acyclic⟩ := shape m built
  exact ⟨rfl, m, built, size, connected, acyclic rfl (by decide) (by decide)⟩

end Construction

end ByteRegex
