import RightLinear.Proofs.Languages

namespace RightLinear

namespace Connective

def dual : Connective → Connective
  | either => both
  | both => either

theorem combine_not (c : Connective) (x y : Bool) : c.combine (!x) (!y) = !c.dual.combine x y := by
  cases c <;> simp [combine, dual]

end Connective

namespace Dfa

variable {c : Connective} {d l r : Dfa} {q : StateId} {a : Symbol}

theorem IsTotal.exists_next? (h : d.IsTotal) (hq : q < d.numStates) (ha : a ∈ d.alphabet) :
    ∃ t, d.next? q a = some t := by
  have listed : (q, a) ∈ d.table := h q hq a (Std.ExtTreeSet.mem_toList.mpr ha)
  exact Option.isSome_iff_exists.mp (Std.ExtTreeMap.mem_iff_isSome_getElem?.mp listed)

theorem IsTotal.exists_of_mem_pairs (hl : l.IsTotal) (hr : r.IsTotal) (wl : l.WellFormed)
    (wr : r.WellFormed) (same : l.alphabet = r.alphabet) {p : StatePair} (hp : p ∈ pairs l r) :
    ∃ q < l.numStates, ∃ t < r.numStates, p = (some q, some t) := by
  revert p
  apply explore_invariant
  · intro p hp p' step
    obtain ⟨q, hq, t, ht, rfl⟩ := hp
    obtain ⟨a, ha, rfl⟩ := List.mem_map.mp step
    have hal : a ∈ l.alphabet := Std.ExtTreeSet.mem_toList.mp ha
    obtain ⟨q', left⟩ := hl.exists_next? hq hal
    obtain ⟨t', right⟩ := hr.exists_next? ht (same ▸ hal)
    refine ⟨q', (wl.edge_lt q a q' left).2, t', (wr.edge_lt t a t' right).2, ?_⟩
    simp only [nextPair, Option.bind_some, left, right]
  · intro p hp
    obtain rfl := List.mem_singleton.mp hp
    exact ⟨l.start, wl.start_lt, r.start, wr.start_lt, rfl⟩

theorem isAccepting_complement (hq : q < d.numStates) :
    d.complement.isAccepting q = !d.isAccepting q := by
  rw [Bool.eq_iff_iff, isAccepting, isAccepting, Std.ExtTreeSet.contains_iff_mem,
    mem_accepting_complement, Bool.not_eq_true', ← Bool.not_eq_true,
    Std.ExtTreeSet.contains_iff_mem]
  simp [hq]

theorem complement_ofStates {σ : Type} [DecidableEq σ] {alphabet : SymbolSet} {states : List σ}
    (next : σ → Symbol → σ) (accepts : σ → Bool) (dead : Option StateId) (h : states.Nodup) :
    (ofStates alphabet states next accepts dead).complement =
      ofStates alphabet states next (fun s => !accepts s) dead := by
  have accepting : (ofStates alphabet states next accepts dead).complement.accepting =
      (ofStates alphabet states next (fun s => !accepts s) dead).accepting := by
    apply Std.ExtTreeSet.ext_mem
    intro q
    rw [mem_accepting_complement, mem_accepting_ofStates, mem_accepting_ofStates]
    constructor
    · intro hq
      obtain ⟨below, rejected⟩ := hq
      have below : q < states.length := below
      have place : states.idxOf states[q] = q := h.idxOf_getElem q below
      refine ⟨states[q], List.getElem_mem below, ?_, place⟩
      rw [Bool.not_eq_true']
      by_contra accepted
      exact rejected ⟨states[q], List.getElem_mem below, by simpa using accepted, place⟩
    · intro hq
      obtain ⟨s, hs, rejects, rfl⟩ := hq
      refine ⟨List.idxOf_lt_length_of_mem hs, ?_⟩
      intro accepted
      obtain ⟨t, ht, accepts, eq⟩ := accepted
      rw [eq_of_idxOf_eq ht hs eq] at accepts
      simp [accepts] at rejects
  exact ext_next? rfl rfl rfl rfl accepting fun _ _ => rfl

theorem ofStates_congr {σ : Type} [DecidableEq σ] {alphabet : SymbolSet} {states : List σ}
    (next : σ → Symbol → σ) {accepts accepts' : σ → Bool} (dead : Option StateId)
    (h : ∀ s ∈ states, accepts s = accepts' s) :
    ofStates alphabet states next accepts dead = ofStates alphabet states next accepts' dead := by
  rw [ofStates, ofStates, List.filter_congr h]

/-- The complements are explored like the automata themselves, pair by pair. -/
theorem complement_pairAutomaton_complement (c : Connective) (hl : l.IsTotal) (hr : r.IsTotal)
    (wl : l.WellFormed) (wr : r.WellFormed) (same : l.alphabet = r.alphabet) :
    (pairAutomaton c l.complement r.complement).complement = pairAutomaton c.dual l r := by
  have explored : pairAutomaton c l.complement r.complement =
      ofStates l.alphabet (pairs l r) (nextPair l r) (acceptsPair c l.complement r.complement)
        none := rfl
  rw [explored, complement_ofStates _ _ _ (nodup_pairs l r), pairAutomaton]
  apply ofStates_congr
  intro p hp
  obtain ⟨q, hq, t, ht, rfl⟩ := hl.exists_of_mem_pairs hr wl wr same hp
  rw [acceptsPair, acceptsPair, Option.any_some, Option.any_some, Option.any_some, Option.any_some,
    isAccepting_complement hq, isAccepting_complement ht, c.combine_not, Bool.not_not]

/-- De Morgan's laws hold of the automata themselves, with the numbers of their states. -/
theorem de_morgan (l r : Dfa) (bl : l.Built) (br : r.Built) (hl : l.IsTotal) (hr : r.IsTotal)
    (same : l.alphabet = r.alphabet) : ∃ u i u' i', union l r = .ok u ∧ intersection l r = .ok i ∧
      union l.complement r.complement = .ok u' ∧ intersection l.complement r.complement = .ok i' ∧
      i = u'.complement ∧ u = i'.complement := by
  have operands (c : Connective) : product c l r = .ok (pairAutomaton c l r) :=
    product_eq_ok_iff.mpr ⟨same, rfl⟩
  have complements (c : Connective) : product c l.complement r.complement =
      .ok (pairAutomaton c l.complement r.complement) :=
    product_eq_ok_iff.mpr ⟨same, rfl⟩
  have dual (c : Connective) : pairAutomaton c.dual l r =
      (pairAutomaton c l.complement r.complement).complement :=
    (complement_pairAutomaton_complement c hl hr bl.wellFormed br.wellFormed same).symm
  exact ⟨_, _, _, _, operands .either, operands .both, complements .either, complements .both,
    dual .either, dual .both⟩

/-- The automaton of the empty word, with a dead state, beside one that is a dead state only. -/
theorem de_morgan_dead : ∃ l r : Dfa, l.Built ∧ r.Built ∧ l.IsTotal ∧ r.IsTotal ∧
    l.alphabet = r.alphabet ∧ l.dead = some 1 ∧ r.dead = some 0 ∧
    ∃ u i u' i', union l r = .ok u ∧ intersection l r = .ok i ∧
      union l.complement r.complement = .ok u' ∧ intersection l.complement r.complement = .ok i' ∧
      i = u'.complement ∧ u = i'.complement ∧
      u.numStates = 2 ∧ u.accepting = {0} ∧ i.numStates = 2 ∧ i.accepting = ∅ := by
  have left : (((Nfa.ofAlphabet (.ofList ['a'])).setStart 0).addAccepting 0).determinize.Built :=
    .determinize (.addAccepting 0 (.setStart 0 (.ofAlphabet _)))
  have right : (Draft.ofAlphabet (.ofList ['a'])).addDead.2.finish.Built :=
    .finish (.addDead (.ofAlphabet _))
  have total : (((Nfa.ofAlphabet (.ofList ['a'])).setStart 0).addAccepting 0).determinize.IsTotal :=
    by decide +kernel
  have total' : (Draft.ofAlphabet (.ofList ['a'])).addDead.2.finish.IsTotal := by decide +kernel
  obtain ⟨u, i, u', i', joined, met, laws⟩ := de_morgan _ _ left right total total' rfl
  have shape (k : Connective) : (product k
      (((Nfa.ofAlphabet (.ofList ['a'])).setStart 0).addAccepting 0).determinize
      (Draft.ofAlphabet (.ofList ['a'])).addDead.2.finish).toOption.map
        (fun d => (d.numStates, d.accepting)) = some (2, if k = .either then {0} else ∅) := by
    cases k <;> decide +kernel
  have of_union := shape .either
  have of_intersection := shape .both
  rw [show product .either _ _ = .ok u from joined] at of_union
  rw [show product .both _ _ = .ok i from met] at of_intersection
  obtain ⟨size, accepting⟩ := Prod.mk.inj (Option.some.inj of_union)
  obtain ⟨size', accepting'⟩ := Prod.mk.inj (Option.some.inj of_intersection)
  exact ⟨_, _, left, right, total, total', rfl, by decide +kernel, by decide +kernel, u, i, u', i',
    joined, met, laws.1, laws.2.1, laws.2.2.1, laws.2.2.2, size, accepting, size', accepting'⟩

end Dfa

end RightLinear
