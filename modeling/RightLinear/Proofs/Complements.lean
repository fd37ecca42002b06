import RightLinear.Proofs.Duality

namespace RightLinear.Dfa

variable {d : Dfa} {q : StateId} {w : Word}

/-- Some symbol of the word has no move in the state that the symbols before it lead to. -/
def Stalls (d : Dfa) (w : Word) : Prop :=
  ∃ u a v q, w = u ++ a :: v ∧ d.run d.start u = some q ∧ d.next? q a = none

theorem run_append_cons_of_next?_eq_none {u v : Word} {a : Symbol} {t : StateId}
    (before : d.run q u = some t) (missing : d.next? t a = none) :
    d.run q (u ++ a :: v) = none := by
  rw [run_append, before, Option.bind_some, run, missing, Option.bind_none]

theorem exists_missing_of_run_eq_none (h : d.run q w = none) :
    ∃ u a v t, w = u ++ a :: v ∧ d.run q u = some t ∧ d.next? t a = none := by
  induction w generalizing q with
  | nil => cases h
  | cons a w ih =>
    cases move : d.next? q a with
    | none => exact ⟨[], a, w, q, rfl, rfl, move⟩
    | some t =>
      rw [run, move, Option.bind_some] at h
      obtain ⟨u, b, v, s, rfl, before, missing⟩ := ih h
      refine ⟨a :: u, b, v, s, rfl, ?_, missing⟩
      rw [run, move, Option.bind_some, before]

theorem stalls_iff : d.Stalls w ↔ d.run d.start w = none := by
  constructor
  · intro h
    obtain ⟨u, a, v, q, rfl, before, missing⟩ := h
    exact run_append_cons_of_next?_eq_none before missing
  · exact exists_missing_of_run_eq_none

theorem not_stalls_iff : ¬d.Stalls w ↔ ∃ q, d.run d.start w = some q := by
  rw [stalls_iff]
  exact Option.ne_none_iff_exists'

theorem IsTotal.not_stalls (h : d.IsTotal) (formed : d.WellFormed)
    (spelled : ∀ a ∈ w, a ∈ d.alphabet) : ¬d.Stalls w := by
  intro stalls
  obtain ⟨u, a, v, q, rfl, before, missing⟩ := stalls
  have known : a ∈ d.alphabet := spelled a (List.mem_append_right u List.mem_cons_self)
  obtain ⟨t, move⟩ := h.exists_next? (formed.run_lt formed.start_lt before) known
  rw [missing] at move
  cases move

/-- A symbol outside the alphabet is missed at the latest where it stands. -/
theorem WellFormed.stalls_of_not_mem_alphabet (h : d.WellFormed) {a : Symbol} (ha : a ∈ w)
    (unknown : a ∉ d.alphabet) : d.Stalls w := by
  by_contra steady
  obtain ⟨q, run⟩ := not_stalls_iff.mp steady
  exact unknown (h.mem_alphabet_of_run run a ha)

theorem accepts_eq_false_of_stalls (h : d.Stalls w) : d.accepts w = false := by
  rw [accepts, stalls_iff.mp h, Option.any_none]

theorem WellFormed.accepts_complement_iff_not_stalls (h : d.WellFormed) :
    d.complement.accepts w = true ↔ ¬d.Stalls w ∧ d.accepts w = false := by
  rw [h.accepts_complement_iff, not_stalls_iff]

theorem WellFormed.accepts_complement_of_not_stalls (h : d.WellFormed) (steady : ¬d.Stalls w) :
    d.complement.accepts w = !d.accepts w := by
  rw [Bool.eq_iff_iff, h.accepts_complement_iff_not_stalls, and_iff_right steady,
    Bool.not_eq_true']

theorem WellFormed.accepts_complement_of_stalls (h : d.WellFormed) (stalls : d.Stalls w) :
    d.complement.accepts w = false := by
  rw [Bool.eq_false_iff, ne_eq, h.accepts_complement_iff_not_stalls]
  exact fun steady => steady.1 stalls

theorem WellFormed.complement_complement (h : d.WellFormed) : d.complement.complement = d := by
  have accepting : d.complement.complement.accepting = d.accepting := by
    apply Std.ExtTreeSet.ext_mem
    intro q
    have size : d.complement.numStates = d.numStates := rfl
    rw [mem_accepting_complement, mem_accepting_complement, size]
    constructor
    · intro hq
      obtain ⟨below, kept⟩ := hq
      by_contra rejected
      exact kept ⟨below, rejected⟩
    · intro final
      exact ⟨h.accepting_lt q final, fun rejected => rejected.2 final⟩
  exact ext_next? rfl rfl rfl rfl accepting fun _ _ => rfl

/-- The complement turns the answer round exactly where the run does not stall, and with the
accepting states alone it can be undone. -/
theorem complement_turns_round (d : Dfa) (h : d.Built) :
    (∀ w, d.complement.accepts w = true ↔ ¬d.Stalls w ∧ d.accepts w = false) ∧
    (d.IsTotal → ∀ w, (∀ a ∈ w, a ∈ d.alphabet) → d.complement.accepts w = !d.accepts w) ∧
    (∀ w, (∃ a ∈ w, a ∉ d.alphabet) → d.accepts w = false ∧ d.complement.accepts w = false) ∧
    d.complement.complement = d ∧
    d.complement = { d with accepting := d.complement.accepting } := by
  have formed : d.WellFormed := h.wellFormed
  refine ⟨?_, ?_, ?_, formed.complement_complement, rfl⟩
  · intro w
    exact formed.accepts_complement_iff_not_stalls
  · intro total w spelled
    exact formed.accepts_complement_of_not_stalls (total.not_stalls formed spelled)
  · intro w foreign
    obtain ⟨a, ha, unknown⟩ := foreign
    have stalls : d.Stalls w := formed.stalls_of_not_mem_alphabet ha unknown
    exact ⟨accepts_eq_false_of_stalls stalls, formed.accepts_complement_of_stalls stalls⟩

/-- An accepting start with a move missing, and the same state made a dead one, which has them
all. -/
theorem complement_turns_round_dead : ∃ d e : Dfa, d.Built ∧ e.Built ∧ ¬d.IsTotal ∧ e.IsTotal ∧
    d.Stalls ['a', 'b'] ∧ e.dead = some e.start ∧ e.start ∈ e.accepting ∧
    (∀ w, d.complement.accepts w = true ↔ ¬d.Stalls w ∧ d.accepts w = false) ∧
    (∀ w, (∀ a ∈ w, a ∈ e.alphabet) → e.complement.accepts w = !e.accepts w) ∧
    (∀ w, (∃ a ∈ w, a ∉ d.alphabet) → d.accepts w = false ∧ d.complement.accepts w = false) ∧
    d.complement.complement = d ∧ e.complement.complement = e ∧
    d.complement = { d with accepting := d.complement.accepting } := by
  have drawn : (loopDraft 'a').Built := built_loopDraft (by decide)
  have partly : (loopDraft 'a').finish.Built := .finish drawn
  have dead : (loopDraft 'a').addDead.2.finish.Built := .finish (.addDead drawn)
  have total : (loopDraft 'a').addDead.2.finish.IsTotal := by decide +kernel
  have stalls : (loopDraft 'a').finish.Stalls ['a', 'b'] := stalls_iff.mpr (by decide +kernel)
  have ⟨judge, _, foreign, back, only⟩ := complement_turns_round _ partly
  have ⟨_, flip, _, back', _⟩ := complement_turns_round _ dead
  exact ⟨_, _, partly, dead, by decide +kernel, total, stalls, by decide +kernel, by decide +kernel,
    judge, flip total, foreign, back, back', only⟩

end RightLinear.Dfa
