import Mathlib.Data.Set.Function
import RightLinear.Proofs.CanonicalNumbering
import RightLinear.Proofs.Duality
import RightLinear.Proofs.OperandOrder

namespace RightLinear.Dfa

variable {c : Connective} {d l r : Dfa} {p : StatePair} {u v w : Word}

theorem completes_pairs (l r : Dfa) :
    Completes (fun p => l.alphabet.toList.map fun a => nextPair l r p a)
      [(some l.start, some r.start)] (pairs l r) := by
  have within : ∀ p ∈ [(some l.start, some r.start)], p ∈ l.sideSpace ×ˢ r.sideSpace :=
    List.forall_mem_singleton.mpr (start_mem_pairSpace l r)
  exact completes_explore pairSpace_closed (by simp) within (length_pairSpace l r)

/-- The pairs that words over the alphabet of the left side lead to. -/
def accessiblePairs (l r : Dfa) : Set StatePair :=
  {p | ∃ w, (∀ a ∈ w, a ∈ l.alphabet) ∧ pairAfter l r w = p}

theorem mem_pairs_iff : p ∈ pairs l r ↔ p ∈ accessiblePairs l r := by
  constructor
  · revert p
    apply explore_invariant
    · intro p hp p' step
      obtain ⟨w, hw, rfl⟩ := hp
      obtain ⟨a, ha, rfl⟩ := List.mem_map.mp step
      have hal : a ∈ l.alphabet := Std.ExtTreeSet.mem_toList.mp ha
      refine ⟨w ++ [a], ?_, pairAfter_append_singleton l r w a⟩
      simpa [or_imp, forall_and, hal] using hw
    · intro p hp
      obtain rfl := List.mem_singleton.mp hp
      exact ⟨[], by simp, rfl⟩
  · intro h
    obtain ⟨w, hw, rfl⟩ := h
    rw [← foldl_nextPair_start]
    exact (enumerates_pairs l r).foldl_mem (enumerates_pairs l r).init_mem hw

theorem Enumerates.exists_bijOn {σ : Type} [DecidableEq σ] {alphabet : SymbolSet} {states : List σ}
    {next : σ → Symbol → σ} {init : σ} (h : Enumerates alphabet states next init)
    (accepts : σ → Bool) (dead : Option StateId) : ∃ place : σ → StateId,
      Set.BijOn place {s | s ∈ states} {q | q < states.length} ∧
      ∀ w, (∀ a ∈ w, a ∈ alphabet) → (ofStates alphabet states next accepts dead).run
        (ofStates alphabet states next accepts dead).start w =
          some (place (w.foldl next init)) := by
  refine ⟨fun s => states.idxOf s, ⟨?_, ?_, ?_⟩, fun _ hw => h.run_start hw⟩
  · intro s hs
    exact List.idxOf_lt_length_of_mem hs
  · intro s hs t ht same
    exact eq_of_idxOf_eq hs ht same
  · intro q hq
    exact ⟨states[q], List.getElem_mem hq, h.nodup.idxOf_getElem q hq⟩

section Bounds

def sides (d : Dfa) : List (Option StateId) := d.states.map some

theorem length_sides (d : Dfa) : d.sides.length = d.numStates := by
  rw [sides, List.length_map, states, List.length_range]

theorem some_mem_sides {q : StateId} (hq : q < d.numStates) : some q ∈ d.sides :=
  List.mem_map.mpr ⟨q, List.mem_range.mpr hq, rfl⟩

theorem WellFormed.run_mem_sides (h : d.WellFormed) (w : Word) :
    d.run d.start w ∈ none :: d.sides := by
  cases run : d.run d.start w with
  | none => exact List.mem_cons_self
  | some q => exact List.mem_cons_of_mem _ (some_mem_sides (h.run_lt h.start_lt run))

theorem length_pairs_le (hl : l.WellFormed) (hr : r.WellFormed) :
    (pairs l r).length ≤ (l.numStates + 1) * (r.numStates + 1) := by
  have inside : pairs l r ⊆ (none :: l.sides) ×ˢ (none :: r.sides) := by
    intro p hp
    obtain ⟨w, _, rfl⟩ := mem_pairs_iff.mp hp
    exact List.mem_product.mpr ⟨hl.run_mem_sides w, hr.run_mem_sides w⟩
  have bound := (nodup_pairs l r).length_le_of_subset inside
  rwa [List.length_product, List.length_cons, List.length_cons, length_sides,
    length_sides] at bound

/-- Sides that never fall silent make do with fewer pairs. -/
theorem IsTotal.length_pairs_le (hl : l.IsTotal) (hr : r.IsTotal) (wl : l.WellFormed)
    (wr : r.WellFormed) (same : l.alphabet = r.alphabet) :
    (pairs l r).length ≤ l.numStates * r.numStates := by
  have inside : pairs l r ⊆ l.sides ×ˢ r.sides := by
    intro p hp
    obtain ⟨q, hq, t, ht, rfl⟩ := hl.exists_of_mem_pairs hr wl wr same hp
    exact List.mem_product.mpr ⟨some_mem_sides hq, some_mem_sides ht⟩
  have bound := (nodup_pairs l r).length_le_of_subset inside
  rwa [List.length_product, length_sides, length_sides] at bound

end Bounds

/-- The states of `d` stand one to one for the pairs that words lead the two sides to, and each
word leads to the state of its pair. -/
structure IsPairAutomaton (l r d : Dfa) : Prop where
  wellFormed : d.WellFormed
  alphabet_eq : d.alphabet = l.alphabet
  start_eq : d.start = 0
  dead_eq : d.dead = none
  isTotal : d.IsTotal
  reached : ∀ q < d.numStates, ∃ w, (∀ a ∈ w, a ∈ l.alphabet) ∧ d.run d.start w = some q
  exists_bijOn : ∃ place : StatePair → StateId,
    Set.BijOn place (accessiblePairs l r) {q | q < d.numStates} ∧
    ∀ w, (∀ a ∈ w, a ∈ l.alphabet) → d.run d.start w = some (place (pairAfter l r w))
  merges_iff : ∀ u v, (∀ a ∈ u, a ∈ l.alphabet) → (∀ a ∈ v, a ∈ l.alphabet) →
    (d.Merges u v ↔ pairAfter l r u = pairAfter l r v)
  numStates_le : d.numStates ≤ (l.numStates + 1) * (r.numStates + 1)
  numStates_le_of_isTotal : l.IsTotal → r.IsTotal → d.numStates ≤ l.numStates * r.numStates

theorem exists_bijOn_pairAutomaton (c : Connective) (l r : Dfa) : ∃ place : StatePair → StateId,
    Set.BijOn place (accessiblePairs l r) {q | q < (pairAutomaton c l r).numStates} ∧
    ∀ w, (∀ a ∈ w, a ∈ l.alphabet) →
      (pairAutomaton c l r).run (pairAutomaton c l r).start w = some (place (pairAfter l r w)) := by
  obtain ⟨place, bijection, run⟩ := (enumerates_pairs l r).exists_bijOn (acceptsPair c l r) none
  have listed : {p | p ∈ pairs l r} = accessiblePairs l r := Set.ext fun _ => mem_pairs_iff
  -- The pair that is folded up along the word is that of two runs by themselves.
  refine ⟨place, listed ▸ bijection, ?_⟩
  intro w hw
  rw [← foldl_nextPair_start]
  exact run w hw

theorem isPairAutomaton_pairAutomaton (c : Connective) (hl : l.WellFormed) (hr : r.WellFormed)
    (same : l.alphabet = r.alphabet) : IsPairAutomaton l r (pairAutomaton c l r) where
  wellFormed := hl.pairAutomaton c r
  alphabet_eq := rfl
  start_eq := rfl
  dead_eq := rfl
  isTotal := (enumerates_pairs l r).isTotal
  reached _ hq := exists_run_pairAutomaton hq
  exists_bijOn := exists_bijOn_pairAutomaton c l r
  merges_iff _ _ hu hv := (merges_pairAutomaton_iff hu hv).trans pairAfter_eq_iff.symm
  numStates_le := length_pairs_le hl hr
  numStates_le_of_isTotal totall totalr := totall.length_pairs_le totalr hl hr same

/-- Union and intersection of automata with one alphabet end and build the automaton on the pairs
that words lead to, each with its own accepting states. -/
theorem union_intersection_accessible_pairs (l r : Dfa) (hl : l.WellFormed) (hr : r.WellFormed)
    (same : l.alphabet = r.alphabet) :
    Completes (fun p => l.alphabet.toList.map fun a => nextPair l r p a)
      [(some l.start, some r.start)] (pairs l r) ∧
    ∃ u i, union l r = .ok u ∧ intersection l r = .ok i ∧
      IsPairAutomaton l r u ∧ IsPairAutomaton l r i := by
  have made (c : Connective) : product c l r = .ok (pairAutomaton c l r) :=
    product_eq_ok_iff.mpr ⟨same, rfl⟩
  exact ⟨completes_pairs l r, _, _, made .either, made .both,
    isPairAutomaton_pairAutomaton .either hl hr same,
    isPairAutomaton_pairAutomaton .both hl hr same⟩

/-- Two automata with one state each that miss different moves, with as many pairs as the bound
allows. -/
theorem union_intersection_accessible_pairs_partial : ∃ l r : Dfa, l.WellFormed ∧ r.WellFormed ∧
    l.alphabet = r.alphabet ∧ ¬l.IsTotal ∧ ¬r.IsTotal ∧
    (pairs l r).length = (l.numStates + 1) * (r.numStates + 1) ∧
    Completes (fun p => l.alphabet.toList.map fun a => nextPair l r p a)
      [(some l.start, some r.start)] (pairs l r) ∧
    ∃ u i, union l r = .ok u ∧ intersection l r = .ok i ∧
      IsPairAutomaton l r u ∧ IsPairAutomaton l r i := by
  have left : (loopDraft 'a').finish.Built := .finish (built_loopDraft (by decide))
  have right : (loopDraft 'b').finish.Built := .finish (built_loopDraft (by decide))
  have same : (loopDraft 'a').finish.alphabet = (loopDraft 'b').finish.alphabet := by decide
  exact ⟨_, _, left.wellFormed, right.wellFormed, same, by decide +kernel, by decide +kernel,
    by decide +kernel,
    union_intersection_accessible_pairs _ _ left.wellFormed right.wellFormed same⟩

end RightLinear.Dfa
