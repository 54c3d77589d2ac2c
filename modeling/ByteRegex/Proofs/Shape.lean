import ByteRegex.Proofs.Layout

/-! Where the nodes of an automaton lead. The targets of a node of an expression are nodes of the
expression and its exit, so an automaton has no target beyond its last node, which is the accepting
one. -/

namespace ByteRegex

namespace Expr

theorem entry_bounds (e : Expr) (lo : Nat) : lo ≤ e.entry lo ∧ e.entry lo < lo + e.width := by
  induction e generalizing lo with
  | operand item =>
    simp only [entry, width]
    omega
  | repeated op body ih =>
    have inner := ih lo
    cases op <;> simp only [entry, width] <;> omega
  | concat left right ihl ihr =>
    have inner := ihl lo
    simp only [entry, width]
    omega
  | alternate left right ihl ihr =>
    simp only [entry, width]
    omega

/-- A node of an expression does not accept, and leads to nodes of the expression or to its exit. -/
def Leads (e : Expr) (lo exit : Nat) (n : Node Nat) : Prop :=
  n ≠ .accept ∧ ∀ b ∈ n.targets, lo ≤ b ∧ b < lo + e.width ∨ b = exit

theorem Leads.widen {e e' : Expr} {lo lo' exit exit' : Nat} {n : Node Nat} (h : e.Leads lo exit n)
    (wider : ∀ b, lo ≤ b ∧ b < lo + e.width ∨ b = exit → lo' ≤ b ∧ b < lo' + e'.width ∨ b = exit') :
    e'.Leads lo' exit' n :=
  ⟨h.1, fun b isTarget => wider b (h.2 b isTarget)⟩

theorem leads_split {e : Expr} {lo exit x y : Nat} (hx : lo ≤ x ∧ x < lo + e.width ∨ x = exit)
    (hy : lo ≤ y ∧ y < lo + e.width ∨ y = exit) : e.Leads lo exit (.split x y) := by
  refine ⟨by simp, ?_⟩
  simpa [Node.targets] using ⟨hx, hy⟩

theorem leads_chain {bytes : List UInt8} {lo : Nat} {n : Node Nat} (h : n ∈ chain id bytes lo) :
    n ≠ .accept ∧ ∀ b ∈ n.targets, lo ≤ b ∧ b ≤ lo + bytes.length := by
  induction bytes generalizing lo with
  | nil => cases h
  | cons b bytes ih =>
    obtain _ | ⟨_, later⟩ := h
    · refine ⟨by simp, ?_⟩
      simp [Node.targets]
    · have inner := ih later
      refine ⟨inner.1, ?_⟩
      intro target isTarget
      have bounds := inner.2 target isTarget
      rw [List.length_cons]
      omega

theorem leads_of_mem (e : Expr) {lo exit : Nat} {n : Node Nat} (h : n ∈ e.layout id lo exit) :
    e.Leads lo exit n := by
  -- a part leads to its own nodes and its own exit, and both lie within the whole or are its exit
  induction e generalizing lo exit with
  | operand item =>
    obtain front | final := List.mem_append.1 h
    · cases item with
      | literal c =>
        have inner := leads_chain front
        refine ⟨inner.1, ?_⟩
        intro b isTarget
        have bounds := inner.2 b isTarget
        rw [List.length_dropLast, String.length_utf8EncodeChar] at bounds
        simp only [width, Operand.lead]
        omega
      | charClass text | wildcard | anchor place => cases front
    · rw [List.mem_singleton.1 final]
      refine ⟨?_, fun b isTarget => .inr ?_⟩
      · cases item <;> simp [Operand.final]
      · cases item <;> exact List.mem_singleton.1 isTarget
  | repeated op body ih =>
    have entry := body.entry_bounds lo
    obtain inside | split := List.mem_append.1 h
    · refine (ih inside).widen fun b bounds => ?_
      cases op <;> simp only [width, loopExit, id] at bounds ⊢ <;> omega
    · rw [List.mem_singleton.1 split]
      refine leads_split (.inl ?_) (.inr rfl)
      simp only [width, id]
      omega
  | concat left right ihl ihr =>
    have entry := right.entry_bounds (lo + left.width)
    obtain first | second := List.mem_append.1 h
    · refine (ihl first).widen fun b bounds => ?_
      simp only [width, id] at bounds ⊢
      omega
    · refine (ihr second).widen fun b bounds => ?_
      simp only [width] at bounds ⊢
      omega
  | alternate left right ihl ihr =>
    have entryl := left.entry_bounds lo
    have entryr := right.entry_bounds (lo + left.width)
    obtain inside | split := List.mem_append.1 h
    · obtain first | second := List.mem_append.1 inside
      · refine (ihl first).widen fun b bounds => ?_
        simp only [width] at bounds ⊢
        omega
      · refine (ihr second).widen fun b bounds => ?_
        simp only [width] at bounds ⊢
        omega
    · rw [List.mem_singleton.1 split]
      refine leads_split (.inl ?_) (.inl ?_)
      · simp only [width, id]
        omega
      · simp only [width, id]
        omega

end Expr

/-- The start and all targets are nodes, and the accepting node is the only one of its kind. -/
structure Automaton.WellFormed (m : Automaton) : Prop where
  start_lt : m.start < m.size
  target_lt : ∀ {a b : Nat} {n : Node Nat}, m.nodes[a]? = some n → b ∈ n.targets → b < m.size
  accept_iff : ∀ {a : Nat}, m.nodes[a]? = some .accept ↔ a = m.accept

theorem Automaton.wellFormed_of_append {nodes : List (Node Nat)} {start accept : Nat}
    (starts : start < nodes.length) (size : nodes.length = accept)
    (inner : ∀ n ∈ nodes, n ≠ .accept ∧ ∀ b ∈ n.targets, b ≤ accept) :
    WellFormed ⟨(nodes ++ [Node.accept]).toArray, start, accept⟩ := by
  subst size
  have count : (nodes ++ [Node.accept]).toArray.size = nodes.length + 1 := by simp
  refine ⟨?_, ?_, ?_⟩
  · rw [Automaton.size, count]
    exact Nat.lt_succ_of_lt starts
  · intro a b n found isTarget
    rw [Automaton.size, count]
    rw [List.getElem?_toArray] at found
    obtain inside | last := List.mem_append.1 (List.mem_of_getElem? found)
    · exact Nat.lt_succ_of_le ((inner n inside).2 b isTarget)
    · rw [List.mem_singleton.1 last] at isTarget
      cases isTarget
  · intro a
    rw [List.getElem?_toArray]
    constructor
    · intro found
      have bound := (List.getElem?_eq_some_iff.1 found).1
      rw [List.length_append, List.length_singleton] at bound
      by_cases small : a < nodes.length
      · rw [List.getElem?_append_left small] at found
        exact absurd rfl (inner _ (List.mem_of_getElem? found)).1
      · exact Nat.le_antisymm (Nat.le_of_lt_succ bound) (Nat.le_of_not_lt small)
    · rintro rfl
      simp

theorem Expr.wellFormed_automaton (e : Expr) (unanchored : Bool) :
    (e.automaton unanchored).WellFormed := by
  have entry := e.entry_bounds 0
  cases unanchored with
  | false =>
    refine Automaton.wellFormed_of_append ?_ (length_layout id e 0 _) ?_
    · rw [length_layout]
      omega
    · intro n inside
      have leads := e.leads_of_mem inside
      refine ⟨leads.1, fun b isTarget => ?_⟩
      have bounds := leads.2 b isTarget
      omega
  | true =>
    have shape : e.automaton true = ⟨((e.layout id 0 (e.width + 3) ++
        e.surroundings id (e.width + 4)) ++ [Node.accept]).toArray, e.width + 1, e.width + 4⟩ := by
      rw [List.append_assoc]
      rfl
    have size : (e.layout id 0 (e.width + 3) ++ e.surroundings id (e.width + 4)).length =
        e.width + 4 := by
      rw [List.length_append, length_layout]
      rfl
    rw [shape]
    refine Automaton.wellFormed_of_append (by omega) size ?_
    intro n member
    obtain inside | outside := List.mem_append.1 member
    · have leads := e.leads_of_mem inside
      refine ⟨leads.1, fun b isTarget => ?_⟩
      have bounds := leads.2 b isTarget
      omega
    · simp only [surroundings, List.mem_cons, List.not_mem_nil, or_false, id] at outside
      obtain rfl | rfl | rfl | rfl := outside <;> refine ⟨by simp, ?_⟩ <;>
        simp only [Node.targets, List.mem_cons, List.not_mem_nil, or_false] <;> omega

theorem Construction.wellFormed_of_ofSymbols {c : Construction} {symbols : List Symbol}
    {m : Automaton} (h : c.ofSymbols symbols = .ok m) : m.WellFormed := by
  obtain ⟨e, -, rfl⟩ := ofSymbols_eq h
  exact e.wellFormed_automaton c.unanchored

theorem Construction.symbols_of_ofPattern {c : Construction} {pattern : String} {m : Automaton}
    (h : c.ofPattern pattern = .ok m) : ∃ symbols, c.ofSymbols symbols = .ok m := by
  unfold ofPattern at h
  split at h
  · cases h
  · unfold ofTokens at h
    split at h
    · cases h
    · exact ⟨_, h⟩

def Automaton.Built (m : Automaton) : Prop :=
  ∃ c : Construction, (∃ symbols, c.ofSymbols symbols = .ok m) ∨ ∃ pattern, c.ofPattern pattern = .ok m

theorem Automaton.Built.wellFormed {m : Automaton} (h : m.Built) : m.WellFormed := by
  obtain ⟨c, ⟨symbols, done⟩ | ⟨pattern, done⟩⟩ := h
  · exact Construction.wellFormed_of_ofSymbols done
  · obtain ⟨symbols, done'⟩ := Construction.symbols_of_ofPattern done
    exact Construction.wellFormed_of_ofSymbols done'

theorem Automaton.exists_built {pattern : String} {p : Automaton → Prop} [DecidablePred p]
    (check : (Construction.ofPattern {} pattern).toOption.any (fun m => decide (p m)) = true) :
    ∃ m : Automaton, m.Built ∧ p m := by
  obtain ⟨m, made, holds⟩ := (Option.any_eq_true _ _).1 check
  exact ⟨m, ⟨{}, .inr ⟨pattern, ok_of_toOption made⟩⟩, of_decide_eq_true holds⟩

end ByteRegex
