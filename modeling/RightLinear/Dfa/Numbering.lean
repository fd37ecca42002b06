import RightLinear.Dfa.Basic

namespace RightLinear.Dfa

variable {σ : Type} [DecidableEq σ]

def rows (alphabet : SymbolSet) (states : List σ) (next : σ → Symbol → σ) :
    List (Reading × StateId) :=
  states.flatMap fun s =>
    alphabet.toList.map fun a => ((states.idxOf s, a), states.idxOf (next s a))

/-- The automaton on the states of a list.  The list holds each state once and is closed under
`next`. -/
def ofStates (alphabet : SymbolSet) (states : List σ) (next : σ → Symbol → σ) (accepts : σ → Bool)
    (dead : Option StateId) : Dfa where
  numStates := states.length
  start := 0
  dead := dead
  alphabet := alphabet
  table := .ofList (rows alphabet states next)
  accepting := .ofList ((states.filter accepts).map fun s => states.idxOf s)

theorem eq_of_idxOf_eq {states : List σ} {s t : σ} (hs : s ∈ states) (ht : t ∈ states)
    (h : states.idxOf s = states.idxOf t) : s = t := by
  rw [← List.getElem_idxOf (List.idxOf_lt_length_of_mem hs),
    ← List.getElem_idxOf (List.idxOf_lt_length_of_mem ht)]
  simp only [h]

theorem pairwise_rows (alphabet : SymbolSet) {states : List σ} (next : σ → Symbol → σ)
    (h : states.Nodup) :
    (rows alphabet states next).Pairwise fun x y => ¬compare x.1 y.1 = .eq := by
  rw [rows, List.pairwise_flatMap]
  constructor
  · intro s _
    rw [List.pairwise_map]
    refine alphabet.ordered_toList.imp fun {a b} hab e => ?_
    rw [Std.LawfulEqCmp.compare_eq_iff_eq] at e
    simp [(Prod.mk.inj e).2] at hab
  · refine List.Pairwise.imp_of_mem (fun {s t} hs ht hst x hx y hy e => ?_) h
    obtain ⟨a, _, rfl⟩ := List.mem_map.1 hx
    obtain ⟨b, _, rfl⟩ := List.mem_map.1 hy
    rw [Std.LawfulEqCmp.compare_eq_iff_eq] at e
    exact hst (eq_of_idxOf_eq hs ht (Prod.mk.inj e).1)

theorem next?_ofStates (alphabet : SymbolSet) {states : List σ} (next : σ → Symbol → σ)
    (accepts : σ → Bool) (dead : Option StateId) (h : states.Nodup) {s : σ} (hs : s ∈ states)
    {a : Symbol} (ha : a ∈ alphabet) :
    (ofStates alphabet states next accepts dead).next? (states.idxOf s) a =
      some (states.idxOf (next s a)) := by
  refine Std.ExtTreeMap.getElem?_ofList_of_mem Std.ReflCmp.compare_self
    (pairwise_rows alphabet next h) ?_
  exact List.mem_flatMap.2 ⟨s, hs, List.mem_map.2 ⟨a, Std.ExtTreeSet.mem_toList.2 ha, rfl⟩⟩

end RightLinear.Dfa
