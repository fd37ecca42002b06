import RightLinear.Proofs.Languages
import RightLinear.Proofs.LeastWords

namespace RightLinear

namespace Dfa

variable {σ : Type} {d : Dfa}

/-- Of all words over the alphabet that lead from the start to the state, this is the first. -/
abbrev LeastWord (d : Dfa) (w : Word) (q : StateId) : Prop :=
  IsLeastWord d.alphabet (d.run d.start) w q

/-- Every state but the dead one has a least word, and the states have the order of their least
words. -/
structure NumberedByWords (d : Dfa) : Prop where
  start_eq : d.start = 0
  reached : ∀ q < d.numStates, d.dead ≠ some q → ∃ w, d.LeastWord w q
  lt_iff : ∀ p < d.numStates, d.dead ≠ some p → ∀ q < d.numStates, d.dead ≠ some q →
    ∀ u v, d.LeastWord u p → d.LeastWord v q → (p < q ↔ Precedes u v)

/-- The states of the automaton, but for the dead one, are the places of a list of states that the
same words lead to. -/
structure Places (d : Dfa) (run : Word → Option σ) (listed : List σ) : Prop where
  lt_length : ∀ q < d.numStates, d.dead ≠ some q → q < listed.length
  leadsTo_iff : ∀ q (h : q < listed.length) (w : Word),
    LeadsTo d.alphabet (d.run d.start) w q ↔ LeadsTo d.alphabet run w listed[q]

theorem Places.numberedByWords {run : Word → Option σ} {listed : List σ} (h : d.Places run listed)
    (start : d.start = 0) (sorted : listed.Pairwise (Before d.alphabet run))
    (reached : ∀ s ∈ listed, ∃ w, LeadsTo d.alphabet run w s) : d.NumberedByWords where
  start_eq := start
  reached q hq alive := by
    have place := h.lt_length q hq alive
    obtain ⟨w, hw⟩ := reached listed[q] (List.getElem_mem place)
    exact ((h.leadsTo_iff q place w).mpr hw).exists_isLeastWord
  lt_iff p hp alive q hq alive' u v hu hv := by
    have place := h.lt_length p hp alive
    have place' := h.lt_length q hq alive'
    have listed_u := (isLeastWord_congr (h.leadsTo_iff p place)).mp hu
    have listed_v := (isLeastWord_congr (h.leadsTo_iff q place')).mp hv
    rw [List.pairwise_iff_getElem] at sorted
    constructor
    · intro less
      exact sorted p q place place' less u v listed_u listed_v
    · intro before
      rcases Nat.lt_trichotomy p q with less | rfl | greater
      · exact less
      · exact absurd (hu.unique hv ▸ before) (Precedes.irrefl u)
      · exact absurd (sorted q p place' place greater v u listed_v listed_u) before.asymm

theorem Enumerates.leadsTo_iff [DecidableEq σ] {alphabet : SymbolSet} {states : List σ}
    {next : σ → Symbol → σ} {init : σ} {accepts : σ → Bool} {dead : Option StateId}
    (h : Enumerates alphabet states next init) {q : StateId} (hq : q < states.length) {w : Word} :
    LeadsTo alphabet ((ofStates alphabet states next accepts dead).run
        (ofStates alphabet states next accepts dead).start) w q ↔
      (∀ a ∈ w, a ∈ alphabet) ∧ w.foldl next init = states[q] := by
  constructor
  · intro hw
    have place : states.idxOf (w.foldl next init) = q :=
      Option.some.inj ((h.run_start hw.spelled).symm.trans hw.run_eq)
    refine ⟨hw.spelled, ?_⟩
    simp only [← place, List.getElem_idxOf]
  · intro hw
    refine ⟨hw.1, ?_⟩
    rw [h.run_start hw.1, hw.2, h.nodup.idxOf_getElem]

end Dfa

namespace Nfa

variable {n : Nfa}

theorem foldl_subsetNext_some (n : Nfa) (s : StateSet) (w : Word) :
    w.foldl n.subsetNext (some s) = runFrom n.follow? s w := by
  induction w generalizing s with
  | nil => rfl
  | cons a w ih =>
    have first : n.subsetNext (some s) a = n.follow? s a := rfl
    rw [List.foldl_cons, first, runFrom, List.foldlM_cons]
    cases n.follow? s a with
    | none => exact n.foldl_subsetNext_none w
    | some t => exact ih t

theorem length_subsetStates (n : Nfa) :
    n.subsetStates.length = n.subsets.length + if n.dies then 1 else 0 :=
  Dfa.length_withDead

theorem getElem?_subsetStates {i : StateId} {s : StateSet} (hi : n.subsets[i]? = some s) :
    n.subsetStates[i]? = some (some s) :=
  Dfa.getElem?_withDead hi

theorem places_determinize (n : Nfa) :
    n.determinize.Places (runFrom n.follow? n.initial) n.subsets where
  lt_length q hq alive := by
    have below : q < n.subsetStates.length := hq
    rw [length_subsetStates] at below
    have alive : (if n.dies then some n.subsets.length else none) ≠ some q := alive
    split at below
    · next dies =>
      rw [if_pos dies] at alive
      have last : n.subsets.length ≠ q := fun eq => alive (congrArg some eq)
      omega
    · exact below
  leadsTo_iff q h w := by
    have below : q < n.subsetStates.length := by
      rw [length_subsetStates]
      omega
    refine (n.enumerates_subsetStates.leadsTo_iff below).trans ?_
    have place := getElem?_subsetStates (List.getElem?_eq_getElem h)
    rw [(List.getElem?_eq_some_iff.mp place).2, foldl_subsetNext_some]
    exact ⟨fun hw => ⟨hw.1, hw.2⟩, fun hw => ⟨hw.spelled, hw.run_eq⟩⟩

theorem numberedByWords_determinize (n : Nfa) : n.determinize.NumberedByWords := by
  have begun : Ascending n.alphabet n.follow? n.initial [] [n.initial] := .start
  obtain ⟨sorted, reached⟩ := begun.sorted_explore (Nat.pow 2 (n.edges.size + 1))
  exact n.places_determinize.numberedByWords rfl sorted reached

theorem dead_determinize {q : StateId} (h : n.determinize.dead = some q) :
    q + 1 = n.determinize.numStates := by
  have last : (if n.dies then some n.subsets.length else none) = some q := h
  have size : n.determinize.numStates = n.subsetStates.length := rfl
  rw [size, length_subsetStates]
  split at last
  · next dies => simp [dies, Option.some.inj last]
  · simp at last

end Nfa

namespace Dfa

variable {l r : Dfa}

theorem places_pairAutomaton (c : Connective) (l r : Dfa) : (pairAutomaton c l r).Places
    (runFrom (fun p a => some (nextPair l r p a)) (some l.start, some r.start)) (pairs l r) where
  lt_length q hq _ := hq
  leadsTo_iff q h w := by
    refine ((enumerates_pairs l r).leadsTo_iff h).trans ?_
    have run : runFrom (fun p a => some (nextPair l r p a)) (some l.start, some r.start) w =
        some (w.foldl (nextPair l r) (some l.start, some r.start)) := List.foldlM_pure
    constructor
    · intro hw
      exact ⟨hw.1, run.trans (congrArg some hw.2)⟩
    · intro hw
      exact ⟨hw.spelled, Option.some.inj (run.symm.trans hw.run_eq)⟩

theorem numberedByWords_pairAutomaton (c : Connective) (l r : Dfa) :
    (pairAutomaton c l r).NumberedByWords := by
  have steps : stepsFrom l.alphabet (fun p a => some (nextPair l r p a)) =
      fun p => l.alphabet.toList.map fun a => nextPair l r p a :=
    funext fun p => congrFun List.filterMap_eq_map' l.alphabet.toList
  have begun : Ascending l.alphabet (fun p a => some (nextPair l r p a)) (some l.start, some r.start)
    [] [(some l.start, some r.start)] := .start
  obtain ⟨sorted, reached⟩ := begun.sorted_explore ((l.table.size + 2) * (r.table.size + 2))
  rw [steps] at sorted reached
  exact (places_pairAutomaton c l r).numberedByWords rfl sorted reached

theorem exists_run_pairAutomaton {c : Connective} {l r : Dfa} {q : StateId}
    (hq : q < (pairAutomaton c l r).numStates) : ∃ w, (∀ a ∈ w, a ∈ l.alphabet) ∧
      (pairAutomaton c l r).run (pairAutomaton c l r).start w = some q := by
  have alive : (pairAutomaton c l r).dead ≠ some q := nofun
  obtain ⟨w, hw⟩ := (numberedByWords_pairAutomaton c l r).reached q hq alive
  exact ⟨w, hw.spelled, hw.run_eq⟩

/-- The numbers that discovery gives to states are settled by the words that lead to them.  A dead
state, which only subset construction adds, has the last number. -/
theorem numbered_by_least_words :
    (∀ n : Nfa, n.determinize.NumberedByWords ∧
      ∀ q, n.determinize.dead = some q → q + 1 = n.determinize.numStates) ∧
    ∀ l r : Dfa, l.alphabet = r.alphabet → ∃ u i, union l r = .ok u ∧ intersection l r = .ok i ∧
      u.NumberedByWords ∧ u.dead = none ∧ i.NumberedByWords ∧ i.dead = none := by
  constructor
  · intro n
    exact ⟨n.numberedByWords_determinize, fun _ => Nfa.dead_determinize⟩
  · intro l r same
    have made (c : Connective) : product c l r = .ok (pairAutomaton c l r) :=
      product_eq_ok_iff.mpr ⟨same, rfl⟩
    exact ⟨_, _, made .either, made .both, numberedByWords_pairAutomaton .either l r, rfl,
      numberedByWords_pairAutomaton .both l r, rfl⟩

/-- Where reading `a` leaves two states live and `b` only one, with nothing to follow it. -/
def guessLast : Nfa :=
  ((((Nfa.ofAlphabet ∅).addEdge ⟨0, 'a', 0⟩).addEdge ⟨0, 'a', 1⟩).addEdge ⟨0, 'b', 1⟩).setStart 0

/-- An automaton that dies, and two with missing moves, so that sides fall silent in the
product. -/
theorem numbered_by_least_words_partial :
    (guessLast.determinize.numStates = 4 ∧ guessLast.determinize.dead = some 3 ∧
      guessLast.determinize.NumberedByWords ∧ ∀ q, guessLast.determinize.dead = some q →
        q + 1 = guessLast.determinize.numStates) ∧
    ∃ l r : Dfa, l.alphabet = r.alphabet ∧ ¬l.IsTotal ∧
    ¬r.IsTotal ∧ ∃ u i, union l r = .ok u ∧ intersection l r = .ok i ∧ u.numStates = 4 ∧
      u.NumberedByWords ∧ u.dead = none ∧ i.NumberedByWords ∧ i.dead = none := by
  have same : (loopDraft 'a').finish.alphabet = (loopDraft 'b').finish.alphabet := by decide
  obtain ⟨u, i, made, made', numbered⟩ := numbered_by_least_words.2 _ _ same
  have states : (union (loopDraft 'a').finish (loopDraft 'b').finish).toOption.map numStates =
      some 4 := by decide +kernel
  rw [made] at states
  constructor
  · exact ⟨by decide +kernel, by decide +kernel, numbered_by_least_words.1 guessLast⟩
  · exact ⟨_, _, same, by decide +kernel, by decide +kernel, u, i, made, made',
      Option.some.inj states, numbered⟩

end Dfa

end RightLinear
