import RightLinear.Dfa.Algebra

namespace RightLinear.Dfa

variable {d : Dfa}

/-- Two words lead to the same state, or both to a missing move. -/
def Merges (d : Dfa) (u v : Word) : Prop := d.run d.start u = d.run d.start v

theorem WellFormed.mem_alphabet_of_run (h : d.WellFormed) {q t : StateId} {w : Word}
    (hr : d.run q w = some t) : ∀ a ∈ w, a ∈ d.alphabet := by
  induction w generalizing q with
  | nil =>
    intro a ha
    exact absurd ha List.not_mem_nil
  | cons b w ih =>
    obtain ⟨r, move, rest⟩ := Option.bind_eq_some_iff.mp hr
    intro a ha
    rcases List.mem_cons.mp ha with eq | ha
    · rw [eq]
      exact h.label_mem q b r move
    · exact ih rest a ha

theorem WellFormed.run_lt (h : d.WellFormed) {q t : StateId} {w : Word} (hq : q < d.numStates)
    (hr : d.run q w = some t) : t < d.numStates := by
  induction w generalizing q with
  | nil =>
    have eq : q = t := Option.some.inj hr
    rw [← eq]
    exact hq
  | cons a w ih =>
    obtain ⟨r, move, rest⟩ := Option.bind_eq_some_iff.mp hr
    exact ih (h.edge_lt q a r move).2 rest

theorem accepts_iff {w : Word} :
    d.accepts w = true ↔ ∃ q, d.run d.start w = some q ∧ q ∈ d.accepting := by
  rw [accepts, Option.any_eq_true]
  rfl

theorem WellFormed.mem_alphabet_of_accepts (h : d.WellFormed) {w : Word}
    (ha : d.accepts w = true) : ∀ a ∈ w, a ∈ d.alphabet := by
  obtain ⟨q, hr, _⟩ := accepts_iff.mp ha
  exact h.mem_alphabet_of_run hr

theorem WellFormed.accepts_of_silent (h : d.WellFormed) {w : Word} (hw : Symbol.epsilon ∈ w) :
    d.accepts w = false := by
  rw [Bool.eq_false_iff]
  intro ha
  exact h.epsilon_not_mem (h.mem_alphabet_of_accepts ha _ hw)

theorem mem_accepting_complement {q : StateId} :
    q ∈ d.complement.accepting ↔ q < d.numStates ∧ q ∉ d.accepting := by
  rw [complement, Std.ExtTreeSet.mem_diff_iff, StateSet.mem_full]

theorem run_complement (d : Dfa) (q : StateId) (w : Word) :
    d.complement.run q w = d.run q w := by
  induction w generalizing q with
  | nil => rfl
  | cons a w ih => exact congrArg (Option.bind (d.next? q a)) (funext ih)

theorem WellFormed.accepts_complement_iff (h : d.WellFormed) {w : Word} :
    d.complement.accepts w = true ↔ (∃ q, d.run d.start w = some q) ∧ d.accepts w = false := by
  have start : d.complement.start = d.start := rfl
  rw [accepts_iff, start, Bool.eq_false_iff, ne_eq, accepts_iff]
  simp only [run_complement, mem_accepting_complement]
  constructor
  · intro hq
    obtain ⟨q, hr, _, reject⟩ := hq
    refine ⟨⟨q, hr⟩, ?_⟩
    intro accept
    obtain ⟨t, ht, final⟩ := accept
    have eq : q = t := Option.some.inj (hr.symm.trans ht)
    exact reject (eq ▸ final)
  · intro hq
    obtain ⟨⟨q, hr⟩, reject⟩ := hq
    exact ⟨q, hr, h.run_lt h.start_lt hr, fun final => reject ⟨q, hr, final⟩⟩

theorem WellFormed.complement (h : d.WellFormed) : d.complement.WellFormed where
  start_lt := h.start_lt
  dead_lt := h.dead_lt
  accepting_lt _ hq := (mem_accepting_complement.mp hq).1
  edge_lt := h.edge_lt
  label_mem := h.label_mem
  epsilon_not_mem := h.epsilon_not_mem

end RightLinear.Dfa
