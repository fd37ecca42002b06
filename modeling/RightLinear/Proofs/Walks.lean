import RightLinear.Proofs.Languages

namespace RightLinear.Nfa

variable {n : Nfa} {e : Edge} {es : List Edge} {p q : StateId} {w : Word}

/-- A sequence of moves of which each starts where the one before it ends. -/
inductive Walk (n : Nfa) : StateId → List Edge → StateId → Prop
  | nil (q : StateId) : Walk n q [] q
  | cons {e : Edge} {es : List Edge} {q : StateId} :
      e ∈ n.edges → Walk n e.target es q → Walk n e.source (e :: es) q

/-- The labels of the moves, with the silent ones erased. -/
def spelling (es : List Edge) : Word := (es.map Edge.label).filter fun a => !a.isEpsilon

theorem spelling_cons_of_silent (h : e.label = Symbol.epsilon) :
    spelling (e :: es) = spelling es := by
  simp [spelling, h, Symbol.isEpsilon]

theorem spelling_cons_of_readable (h : e.label ≠ Symbol.epsilon) :
    spelling (e :: es) = e.label :: spelling es := by
  simp [spelling, h, Symbol.isEpsilon]

theorem Walk.path (h : n.Walk p es q) : n.Path p (spelling es) q := by
  induction h with
  | nil q => exact .nil q
  | @cons e es q move _ ih =>
    by_cases silent : e.label = Symbol.epsilon
    · rw [spelling_cons_of_silent silent]
      exact .silent (silent ▸ move) ih
    · rw [spelling_cons_of_readable silent]
      exact .read silent move ih

theorem Path.exists_walk (h : n.Path p w q) : ∃ es, n.Walk p es q ∧ spelling es = w := by
  induction h with
  | nil q => exact ⟨[], .nil q, rfl⟩
  | silent move _ ih =>
    obtain ⟨es, walk, rfl⟩ := ih
    exact ⟨_, .cons move walk, spelling_cons_of_silent rfl⟩
  | read readable move _ ih =>
    obtain ⟨es, walk, rfl⟩ := ih
    exact ⟨_, .cons move walk, spelling_cons_of_readable readable⟩

theorem recognizes_iff_exists_walk : n.Recognizes w ↔
    ∃ p es q, n.start = some p ∧ n.Walk p es q ∧ q ∈ n.accepting ∧ spelling es = w := by
  constructor
  · intro h
    obtain ⟨p, q, start, path, final⟩ := h
    obtain ⟨es, walk, spells⟩ := path.exists_walk
    exact ⟨p, es, q, start, walk, final, spells⟩
  · intro h
    obtain ⟨p, es, q, start, walk, final, rfl⟩ := h
    exact ⟨p, q, start, walk.path, final⟩

/-- The live sets of a word, with the exit from an empty one, give the answer that walks give: the
word is accepted if a walk from the start to an accepting state spells it. -/
theorem accepts_iff_exists_walk (n : Nfa) (w : Word) (hw : Symbol.epsilon ∉ w) :
    ∃ b, n.accepts w = .ok b ∧
      (b = true ↔ ∃ p es q, n.start = some p ∧ n.Walk p es q ∧ q ∈ n.accepting ∧
        spelling es = w) ∧
      (n.start = none → b = false) := by
  have answer : n.accepts w = .ok ((n.liveAfter n.initial w).meets n.accepting) := accepts_eq hw
  have judge : (n.liveAfter n.initial w).meets n.accepting = true ↔ n.Recognizes w := by
    rw [← accepts_iff_recognizes hw, answer, Except.ok.injEq]
  refine ⟨_, answer, judge.trans recognizes_iff_exists_walk, ?_⟩
  intro nowhere
  rw [Bool.eq_false_iff, ne_eq, judge]
  intro h
  obtain ⟨p, q, start, _⟩ := h
  rw [nowhere] at start
  cases start

/-- Three moves spell two symbols, for the one in the middle goes back silently. -/
theorem accepts_iff_exists_walk_silentLoop :
    Symbol.epsilon ∉ ['a', 'a'] ∧ silentLoop.accepts ['a', 'a'] = .ok true ∧
    silentLoop.Walk 0 [⟨0, 'a', 1⟩, ⟨1, 'ε', 0⟩, ⟨0, 'a', 1⟩] 1 ∧
    ∃ b, silentLoop.accepts ['a', 'a'] = .ok b ∧
      (b = true ↔ ∃ p es q, silentLoop.start = some p ∧ silentLoop.Walk p es q ∧
        q ∈ silentLoop.accepting ∧ spelling es = ['a', 'a']) ∧
      (silentLoop.start = none → b = false) := by
  have readable : Symbol.epsilon ∉ ['a', 'a'] := by decide
  have there : (⟨0, 'a', 1⟩ : Edge) ∈ silentLoop.edges := by decide +kernel
  have back : (⟨1, 'ε', 0⟩ : Edge) ∈ silentLoop.edges := by decide +kernel
  have walk : silentLoop.Walk 0 [⟨0, 'a', 1⟩, ⟨1, 'ε', 0⟩, ⟨0, 'a', 1⟩] 1 :=
    .cons there (.cons back (.cons there (.nil 1)))
  exact ⟨readable, by decide +kernel, walk, accepts_iff_exists_walk silentLoop _ readable⟩

end RightLinear.Nfa
