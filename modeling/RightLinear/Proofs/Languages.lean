import RightLinear.Proofs.Provenance

namespace RightLinear

namespace Nfa

variable {n : Nfa} {w : Word}

theorem Stumbles.epsilon_mem (h : n.Stumbles w) : Symbol.epsilon ∈ w := by
  obtain ⟨u, v, eq, _⟩ := h
  rw [eq]
  exact List.mem_append_right _ List.mem_cons_self

theorem WellFormed.accepts_eq_determinize (h : n.WellFormed) (steady : ¬n.Stumbles w) :
    n.accepts w = .ok (n.determinize.accepts w) := by
  by_cases silent : Symbol.epsilon ∈ w
  · rw [accepts_of_not_stumbles steady silent, h.determinize.accepts_of_silent silent]
  · have judge : n.determinize.accepts w = true ↔
        (n.liveAfter n.initial w).meets n.accepting = true := by
      rw [h.accepts_determinize_iff, ← accepts_iff_recognizes silent, accepts_eq silent,
        Except.ok.injEq]
    rw [accepts_eq silent, Bool.eq_iff_iff.mpr judge]

/-- The live sets of a word are tracked until the silent label is met with some state still live.
Up to there, and wherever it is not met so, the deterministic automaton gives the same answer. -/
theorem accepts_agrees_with_determinize (n : Nfa) (h : n.Built) (w : Word) :
    (n.accepts w = .error .silentStep ↔ n.Stumbles w) ∧
    (¬n.Stumbles w → n.accepts w = .ok (n.determinize.accepts w)) := by
  have agree : ¬n.Stumbles w → n.accepts w = .ok (n.determinize.accepts w) :=
    h.wellFormed.accepts_eq_determinize
  refine ⟨?_, agree⟩
  constructor
  · intro refused
    by_contra steady
    rw [agree steady] at refused
    cases refused
  · exact accepts_of_stumbles

/-- Two states without a name, with a silent move back to the first. -/
def silentLoop : Nfa :=
  ((((Nfa.ofAlphabet ∅).addEdge ⟨0, 'a', 1⟩).addSilent 1 0).setStart 0).addAccepting 1

theorem accepts_agrees_with_determinize_silentLoop : silentLoop.Built ∧
    (silentLoop.accepts ['a', 'ε'] = .error .silentStep ↔ silentLoop.Stumbles ['a', 'ε']) ∧
    silentLoop.Stumbles ['a', 'ε'] ∧ ¬silentLoop.Stumbles ['a', 'a'] ∧
    silentLoop.accepts ['a', 'a'] = .ok (silentLoop.determinize.accepts ['a', 'a']) := by
  have built : silentLoop.Built :=
    .addAccepting 1 (.setStart 0 (.addEdge ⟨1, 'ε', 0⟩ (.addEdge _ (.ofAlphabet ∅))))
  have refused : silentLoop.accepts ['a', 'ε'] = .error .silentStep := by decide +kernel
  have steady : ¬silentLoop.Stumbles ['a', 'a'] := by
    intro stumbles
    have silent : Symbol.epsilon ∈ ['a', 'a'] := stumbles.epsilon_mem
    revert silent
    decide
  have ⟨blame, _⟩ := accepts_agrees_with_determinize silentLoop built ['a', 'ε']
  have ⟨_, agree⟩ := accepts_agrees_with_determinize silentLoop built ['a', 'a']
  exact ⟨built, blame, blame.mp refused, steady, agree steady⟩

end Nfa

namespace Dfa

/-- Operands with one alphabet are combined without failure.  What the result accepts is decided by
the answers of the operands, whether they have all their moves or not, also for words that the
alphabet does not spell. -/
theorem union_intersection_languages :
    (∀ l r : Dfa, l.Built → r.Built → l.alphabet = r.alphabet →
      ∃ u i, union l r = .ok u ∧ intersection l r = .ok i ∧ ∀ w,
        u.accepts w = (l.accepts w || r.accepts w) ∧
        i.accepts w = (l.accepts w && r.accepts w)) ∧
    (∀ ds : List Dfa, ds ≠ [] → (∀ d ∈ ds, d.Built) →
      (∀ d ∈ ds, ∀ e ∈ ds, d.alphabet = e.alphabet) →
      ∃ u i, unionAll ds = .ok u ∧ intersectionAll ds = .ok i ∧ ∀ w,
        (u.accepts w = true ↔ ∃ d ∈ ds, d.accepts w = true) ∧
        (i.accepts w = true ↔ ∀ d ∈ ds, d.accepts w = true)) := by
  constructor
  · intro l r hl hr same
    refine ⟨pairAutomaton .either l r, pairAutomaton .both l r, ?_, ?_, ?_⟩
    · exact product_eq_ok_iff.mpr ⟨same, rfl⟩
    · exact product_eq_ok_iff.mpr ⟨same, rfl⟩
    · intro w
      exact ⟨hl.wellFormed.accepts_pairAutomaton hr.wellFormed same .either w,
        hl.wellFormed.accepts_pairAutomaton hr.wellFormed same .both w⟩
  · intro ds nonempty built same
    have formed : ∀ d ∈ ds, d.WellFormed := fun d hd => (built d hd).wellFormed
    obtain ⟨u, hu⟩ : ∃ u, unionAll ds = .ok u := exists_foldOperands_product .either nonempty same
    obtain ⟨i, hi⟩ : ∃ i, intersectionAll ds = .ok i :=
      exists_foldOperands_product .both nonempty same
    refine ⟨u, i, hu, hi, ?_⟩
    intro w
    rw [accepts_unionAll hu formed, accepts_intersectionAll hi formed, List.any_eq_true,
      List.all_eq_true]
    exact ⟨Iff.rfl, Iff.rfl⟩

/-- One accepting state over two symbols, which leads back to itself on `a` and has no other
move. -/
def loopDraft (a : Symbol) : Draft :=
  let d := Draft.ofAlphabet (.ofList ['a', 'b'])
  Draft.addAccepting { d with alphabet := d.alphabet.insert a, table := d.table.insert (0, a) 0 } 0

theorem built_loopDraft {a : Symbol} (ha : a ≠ Symbol.epsilon) : (loopDraft a).Built := by
  have added : (Draft.ofAlphabet (.ofList ['a', 'b'])).addEdge ⟨0, a, 0⟩ = .ok _ :=
    Draft.addEdge_eq_ok_iff.mpr ⟨ha, rfl⟩
  exact .addAccepting 0 (.addEdge (.ofAlphabet _) added)

theorem union_intersection_languages_partial : ∃ l r : Dfa, l.Built ∧ r.Built ∧
    l.alphabet = r.alphabet ∧ ¬l.IsTotal ∧ ¬r.IsTotal ∧
    (∃ u i, union l r = .ok u ∧ intersection l r = .ok i ∧ ∀ w,
      u.accepts w = (l.accepts w || r.accepts w) ∧
      i.accepts w = (l.accepts w && r.accepts w)) ∧
    (∃ u i, unionAll [l, r, l] = .ok u ∧ intersectionAll [l, r, l] = .ok i ∧ ∀ w,
      (u.accepts w = true ↔ ∃ d ∈ [l, r, l], d.accepts w = true) ∧
      (i.accepts w = true ↔ ∀ d ∈ [l, r, l], d.accepts w = true)) := by
  have left : (loopDraft 'a').finish.Built := .finish (built_loopDraft (by decide))
  have right : (loopDraft 'b').finish.Built := .finish (built_loopDraft (by decide))
  have same : (loopDraft 'a').finish.alphabet = (loopDraft 'b').finish.alphabet := by decide
  refine ⟨_, _, left, right, same, by decide +kernel, by decide +kernel,
    union_intersection_languages.1 _ _ left right same,
    union_intersection_languages.2 _ (by simp) ?_ ?_⟩
  · simp [left, right]
  · simp [same]

end Dfa

end RightLinear
