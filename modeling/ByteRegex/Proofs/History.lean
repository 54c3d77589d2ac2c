import ByteRegex.Matching.Regex
import ByteRegex.Proofs.Sessions

/-! What earlier searches leave behind never changes an answer. The memory of a regular expression
stays fit for its automaton through searches of every kind, also when its table fills up and is given
up in the middle of one. -/

namespace ByteRegex

namespace Regex

/-- A search on a regular expression or on one of its copies. -/
inductive Call
  | simulate (haystack : List UInt8)
  | tabulate (haystack : List UInt8)
  | matchUsing (strategy : Strategy) (haystack : List UInt8)
  deriving DecidableEq

def Call.haystack : Call → List UInt8
  | simulate haystack => haystack
  | tabulate haystack => haystack
  | matchUsing _ haystack => haystack

def perform (r : Regex) (memory : Memory) : Call → Bool × Memory
  | .simulate haystack => r.simulate memory haystack
  | .tabulate haystack => r.tabulate memory haystack
  | .matchUsing strategy haystack => r.matchUsing strategy memory haystack

def memoryAfter (r : Regex) (calls : List Call) : Memory :=
  calls.foldl (fun memory call => (r.perform memory call).2) r.newMemory

/-- A memory is fit for searches: its sets fit the automaton and its table is sound. -/
structure Memory.Sound (memory : Memory) (r : Regex) : Prop where
  simulation : memory.simulation.Fits r.automaton
  table : memory.table.Sound r.matcher

variable {r : Regex} {memory : Memory}

theorem sound_newMemory : r.newMemory.Sound r :=
  ⟨Simulation.fits_ofAutomaton, LazyTable.sound_ofAutomaton r.matcher⟩

theorem simulate_spec (wf : r.automaton.WellFormed) (h : memory.Sound r) (haystack : List UInt8) :
    (r.simulate memory haystack).1 = r.automaton.accepts haystack ∧
      (r.simulate memory haystack).2.Sound r := by
  obtain ⟨simulation, table⟩ := memory
  have answer := Simulation.search_eq wf h.simulation haystack
  have fits := Simulation.search_fits wf h.simulation haystack
  refine ⟨?_, fits, h.table⟩
  simp only [simulate, answer]
  cases r.automaton.accepts haystack <;> rfl

theorem tabulate_spec (wf : r.automaton.WellFormed) (h : memory.Sound r) (haystack : List UInt8) :
    (r.tabulate memory haystack).1 = r.automaton.accepts haystack ∧
      (r.tabulate memory haystack).2.Sound r := by
  obtain ⟨simulation, table⟩ := memory
  have found : r.matcher.Grows table (r.matcher.search table haystack) fun answer _ =>
      answer = true ↔ r.automaton.Accepts haystack := LazyMatcher.search_spec wf h.table haystack
  simp only [tabulate]
  generalize r.matcher.search table haystack = result at found ⊢
  obtain ⟨outcome, table'⟩ := result
  cases outcome with
  | error reason =>
    -- the table that failed is given up, and the cache is still fit
    have renewed : Memory.Sound ⟨simulation, r.matcher.newTable⟩ r :=
      ⟨h.simulation, LazyTable.sound_ofAutomaton r.matcher⟩
    exact simulate_spec wf renewed haystack
  | ok answer =>
    have right := found.ok rfl
    refine ⟨?_, h.simulation, found.sound⟩
    exact Bool.eq_iff_iff.2 (right.trans (Automaton.accepts_iff wf haystack).symm)

theorem perform_spec (wf : r.automaton.WellFormed) (h : memory.Sound r) (call : Call) :
    (r.perform memory call).1 = r.automaton.accepts call.haystack ∧
      (r.perform memory call).2.Sound r := by
  cases call with
  | simulate haystack => exact simulate_spec wf h haystack
  | tabulate haystack => exact tabulate_spec wf h haystack
  | matchUsing strategy haystack =>
    cases strategy with
    | nfa => exact simulate_spec wf h haystack
    | dfa => exact tabulate_spec wf h haystack

theorem sound_memoryAfter (wf : r.automaton.WellFormed) (calls : List Call) :
    (r.memoryAfter calls).Sound r := by
  have run (memory : Memory) (h : memory.Sound r) :
      (calls.foldl (fun memory call => (r.perform memory call).2) memory).Sound r := by
    induction calls generalizing memory with
    | nil => exact h
    | cons call calls ih => exact ih _ (perform_spec wf h call).2
  exact run _ sound_newMemory

theorem settings_of_ofText {s : Settings} {text : String} (made : ofText s text = .ok r) :
    r.settings = s ∧ s.construction.ofPattern text = .ok r.automaton := by
  obtain ⟨pattern, compiled, result⟩ := ok_of_bind made
  cases result
  refine ⟨rfl, ?_⟩
  unfold CompiledPattern.ofText at compiled
  split at compiled
  · cases compiled
  · split at compiled
    · cases compiled
    · cases compiled
      simp only [Construction.ofPattern, *]
      rfl

theorem built_of_ofText {s : Settings} {text : String} (made : ofText s text = .ok r) :
    r.automaton.Built :=
  ⟨s.construction, .inr ⟨text, (settings_of_ofText made).2⟩⟩

/-- After any searches, a search of any kind answers what a simulation answers on a new regular
expression. Simulations do not break off, searches with the table fail only when it is full, and the
table never has more rows than it may have. -/
theorem answers_without_history {s : Settings} {text : String} (made : ofText s text = .ok r)
    (calls : List Call) :
    (∀ call, (r.perform (r.memoryAfter calls) call).1 =
      (r.simulate r.newMemory call.haystack).1) ∧
    (∀ haystack, (Simulation.search r.automaton (r.memoryAfter calls).simulation haystack).1 =
      some (r.simulate r.newMemory haystack).1) ∧
    (∀ haystack e, (r.matcher.search (r.memoryAfter calls).table haystack).1 = .error e →
      ∃ limit, e = .full limit) ∧
    ∀ limit, s.rowLimit = some limit → (r.memoryAfter calls).table.size ≤ max 1 limit := by
  have wf := (built_of_ofText made).wellFormed
  have sound := sound_memoryAfter wf calls
  have fresh (haystack : List UInt8) := (simulate_spec wf sound_newMemory haystack).1
  refine ⟨?_, ?_, ?_, ?_⟩
  · intro call
    rw [fresh, (perform_spec wf sound call).1]
  · intro haystack
    rw [fresh, Simulation.search_eq wf sound.simulation]
  · intro haystack e failed
    exact (LazyMatcher.search_spec wf sound.table haystack).full failed
  · intro limit limited
    rw [← (settings_of_ofText made).1] at limited
    exact sound.table.size_le_limit limited

theorem answers_without_history_of_letter : ∃ r, ofText { rowLimit := some 1 } "a" = .ok r ∧
    (∀ call, (r.perform (r.memoryAfter [.tabulate [0x61], .simulate [], .tabulate [0x62]]) call).1 =
      (r.simulate r.newMemory call.haystack).1) ∧
    (∀ haystack, (Simulation.search r.automaton
      (r.memoryAfter [.tabulate [0x61], .simulate [], .tabulate [0x62]]).simulation haystack).1 =
      some (r.simulate r.newMemory haystack).1) ∧
    (∀ haystack e, (r.matcher.search
      (r.memoryAfter [.tabulate [0x61], .simulate [], .tabulate [0x62]]).table haystack).1 =
      .error e → ∃ limit, e = .full limit) ∧
    ∀ limit, some 1 = some limit →
      (r.memoryAfter [.tabulate [0x61], .simulate [], .tabulate [0x62]]).table.size ≤ max 1 limit := by
  have compiles : (ofText { rowLimit := some 1 } "a").isOk = true := by decide +kernel
  obtain ⟨r, made⟩ := exists_of_isOk compiles
  exact ⟨r, made, answers_without_history made [.tabulate [0x61], .simulate [], .tabulate [0x62]]⟩

end Regex

end ByteRegex
