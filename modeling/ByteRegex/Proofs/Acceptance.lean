import ByteRegex.Proofs.Simulation

/-! What a simulation has found out when it halts. The members of its set are the nodes that runs have
reached and that do not pass on silently. If some bytes are still unread, there are none of them, and no
haystack of this length that begins with the bytes before is accepted. -/

namespace ByteRegex

namespace Automaton

variable {m : Automaton} {haystack other part : List UInt8} {sources : List Nat}

theorem activeFrom_congr (length : other.length = haystack.length) {i a : Nat}
    (same : other.take i = haystack.take i) :
    m.ActiveFrom other sources i a ↔ m.ActiveFrom haystack sources i a := by
  have place (k : Nat) : Place.within other k = Place.within haystack k := by
    rw [Place.within, length, Place.within]
  induction i generalizing a with
  | zero => rw [activeFrom_zero, activeFrom_zero, place]
  | succ i ih =>
    have byte : other[i]? = haystack[i]? := by
      have last := congrArg (·[i]?) same
      simpa only [List.getElem?_take_of_succ] using last
    have before : other.take i = haystack.take i := by
      have shorter := congrArg (List.take i) same
      simpa only [List.take_take, Nat.min_eq_left (Nat.le_succ i)] using shorter
    simp only [activeFrom_succ, byte, place, ih before]

theorem counts_within {i a : Nat} : m.Counts (.within haystack i) a ↔
    ∃ n, m.nodes[a]? = some n ∧ n.isSilent = false := by
  refine exists_congr fun n => and_congr_right fun _ => ?_
  cases n with
  | consume | accept => exact iff_of_true rfl rfl
  | split => exact iff_of_false (by simp [Node.isMember]) (by simp [Node.isSilent])
  | require anchor next =>
    refine iff_of_false ?_ (by simp [Node.isSilent])
    cases anchor <;> simp [Node.isMember, Place.within]

theorem not_accepts_of_none (beginning : part <+: haystack) (shorter : part.length < haystack.length)
    {p : Place} (none : ∀ a, m.ActiveFrom haystack [m.start] part.length a → ¬m.Counts p a)
    (length : other.length = haystack.length) (beginning' : part <+: other) : ¬m.Accepts other := by
  have same : other.take part.length = haystack.take part.length := by
    rw [← List.prefix_iff_eq_take.1 beginning, ← List.prefix_iff_eq_take.1 beginning']
  have none' : ∀ a, m.ActiveFrom other [m.start] part.length a → ¬m.Counts p a :=
    fun a active => none a ((activeFrom_congr length same).1 active)
  have never := not_activeFrom_of_none none' (other.length - part.length - 1) m.accept
  rw [show part.length + (other.length - part.length - 1) + 1 = other.length by omega,
    activeFrom_start] at never
  exact never

end Automaton

namespace Simulation

variable {m : Automaton}

/-- A search decides whether some run from the start node reads exactly the haystack and ends in the
accepting node. Where it halts, the members of the set are, each once, the nodes that runs reach there and
that do not pass on silently. It only halts before the end if there are none. -/
theorem search_decides (built : m.Built) (haystack : List UInt8) : ∃ answer final read unread,
    search m (.ofAutomaton m) haystack = (some answer, final) ∧
    halt m (begun m (.ofAutomaton m) haystack) haystack = (final, unread) ∧
    haystack = read ++ unread ∧
    (answer = true ↔ m.Accepts haystack) ∧
    final.active.members.toList.Nodup ∧
    (∀ a, a ∈ final.active.members ↔ m.Active haystack read.length a ∧
      ∃ n, m.nodes[a]? = some n ∧ n.isSilent = false) ∧
    (unread ≠ [] → final.active.members = #[] ∧
      ∀ other, other.length = haystack.length → read <+: other → ¬m.Accepts other) := by
  have wf := built.wellFormed
  obtain ⟨here, result⟩ := begun_spec wf (fits_ofAutomaton (m := m)).active fits_ofAutomaton.previous
    (fun a left => absurd left List.not_mem_nil) haystack
  obtain ⟨final, j, halts, bound, there, stops⟩ := halt_spec wf (Nat.zero_le _) here
  obtain ⟨answer, ran, right⟩ := run_spec wf (Nat.zero_le _) here
  rw [List.drop_zero] at halts ran
  rw [halts] at ran
  have length : (haystack.take j).length = j := List.length_take_of_le bound
  have members (a : Nat) : a ∈ final.active.members ↔ m.Active haystack j a ∧
      ∃ n, m.nodes[a]? = some n ∧ n.isSilent = false := by
    rw [there.active.members_iff, ← Automaton.counts_within]
    exact and_congr_left fun _ => Automaton.activeFrom_start
  refine ⟨answer, final, haystack.take j, haystack.drop j, result.trans ran, halts,
    (List.take_append_drop j haystack).symm, right.trans Automaton.activeFrom_start,
    there.active.nodup, by rw [length]; exact members, ?_⟩
  intro more
  have before : j < haystack.length := by simpa using more
  have idle := stops.resolve_left (Nat.ne_of_lt before)
  refine ⟨idle, fun other same beginning => ?_⟩
  have shorter : (haystack.take j).length < haystack.length := by rwa [length]
  -- no member means that no active node counts, whatever bytes would come next
  refine Automaton.not_accepts_of_none (p := .within haystack j) (List.take_prefix j haystack)
    shorter ?_ same beginning
  intro a active counts
  rw [length] at active
  have member := (there.active.members_iff a).2 ⟨active, counts⟩
  rw [idle] at member
  exact Array.not_mem_empty a member

theorem search_decides_of_letters : ∃ m : Automaton, m.Built ∧
    (halt m (begun m (.ofAutomaton m) [0x62, 0x61]) [0x62, 0x61]).2 = [0x61] ∧
    ¬m.Accepts [0x62, 0x61] ∧
    ∀ other, other.length = 2 → [0x62] <+: other → ¬m.Accepts other := by
  have compiles : (Construction.ofPattern {} "ab").toOption.any (fun m => decide
      ((halt m (begun m (.ofAutomaton m) [0x62, 0x61]) [0x62, 0x61]).2 = [0x61])) = true := by
    decide +kernel
  obtain ⟨m, built, left⟩ := Automaton.exists_built compiles
  obtain ⟨answer, final, read, unread, result, halts, parts, right, nodup, members, stops⟩ :=
    search_decides built [0x62, 0x61]
  rw [halts] at left
  cases left
  have same : [0x62] ++ [0x61] = read ++ [0x61] := parts
  have first : [0x62] = read := List.append_cancel_right same
  obtain ⟨-, never⟩ := stops (List.cons_ne_nil _ _)
  rw [← first] at never
  refine ⟨m, built, by rw [halts], never [0x62, 0x61] rfl ⟨[0x61], rfl⟩, never⟩

end Simulation

end ByteRegex
