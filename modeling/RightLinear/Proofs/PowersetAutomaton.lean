import RightLinear.Proofs.CanonicalNumbering
import RightLinear.Traced.Automata

namespace RightLinear.Nfa

variable {n : Nfa} {s : StateSet} {a : Symbol} {w : Word} {i q : StateId}

/-- The set of the states that paths for the word lead to from the start. -/
def IsLiveSet (n : Nfa) (w : Word) (s : StateSet) : Prop := ∀ q, q ∈ s ↔ n.Live w q

theorem isLiveSet_iff (hw : Symbol.epsilon ∉ w) :
    n.IsLiveSet w s ↔ s = n.liveAfter n.initial w := by
  constructor
  · intro h
    apply Std.ExtTreeSet.ext_mem
    intro q
    rw [h q, mem_liveAfter_initial_iff hw]
  · intro eq q
    rw [eq, mem_liveAfter_initial_iff hw]

theorem IsLiveSet.isClosed (h : n.IsLiveSet w s) : n.IsClosed s := by
  intro p hp q silent
  obtain ⟨r, start, path⟩ := (h p).mp hp
  have onward := path.append silent
  rw [List.append_nil] at onward
  exact (h q).mpr ⟨r, start, onward⟩

section Sets

theorem completes_subsets (n : Nfa) : Completes n.followers [n.initial] n.subsets := by
  have closed : ∀ s ∈ n.subsetSpace, ∀ t ∈ n.followers s, t ∈ n.subsetSpace :=
    fun _ _ _ ht => followers_subset_space ht
  have within : ∀ s ∈ [n.initial], s ∈ n.subsetSpace := by simp [subsetSpace]
  exact completes_explore closed (by simp) within n.length_subsetSpace

theorem mem_subsets_iff :
    s ∈ n.subsets ↔ ∃ w, LeadsTo n.alphabet (runFrom n.follow? n.initial) w s := by
  constructor
  · have begun : Ascending n.alphabet n.follow? n.initial [] [n.initial] := .start
    exact (begun.sorted_explore _).2 s
  · intro h
    obtain ⟨w, hw⟩ := h
    have listed := n.enumerates_subsetStates.foldl_mem n.enumerates_subsetStates.init_mem hw.spelled
    rw [foldl_subsetNext_some, hw.run_eq, mem_subsetStates_iff] at listed
    simpa using listed

theorem getD_runFrom (s : StateSet) (w : Word) :
    (runFrom n.follow? s w).getD ∅ = n.liveAfter s w := by
  rw [← foldl_subsetNext_some, getD_foldl_subsetNext]

theorem exists_liveSet_of_mem_subsets (silent : Symbol.epsilon ∉ n.alphabet) (hs : s ∈ n.subsets) :
    ∃ w, (∀ a ∈ w, a ∈ n.alphabet) ∧ n.IsLiveSet w s := by
  obtain ⟨w, hw⟩ := mem_subsets_iff.mp hs
  have readable : Symbol.epsilon ∉ w := fun he => silent (hw.spelled _ he)
  refine ⟨w, hw.spelled, (isLiveSet_iff readable).mpr ?_⟩
  rw [← getD_runFrom, hw.run_eq, Option.getD_some]

/-- The empty set is left to the dead state, so it is listed only if it is the initial one. -/
theorem mem_subsets_of_isLiveSet (silent : Symbol.epsilon ∉ n.alphabet)
    (hw : ∀ a ∈ w, a ∈ n.alphabet) (live : n.IsLiveSet w s) (nonempty : s ≠ ∅) :
    s ∈ n.subsets := by
  have readable : Symbol.epsilon ∉ w := fun he => silent (hw _ he)
  have eq : s = (runFrom n.follow? n.initial w).getD ∅ := by
    rw [getD_runFrom, (isLiveSet_iff readable).mp live]
  cases run : runFrom n.follow? n.initial w with
  | none =>
    rw [run, Option.getD_none] at eq
    exact absurd eq nonempty
  | some t =>
    rw [run, Option.getD_some] at eq
    exact mem_subsets_iff.mpr ⟨w, hw, eq ▸ run⟩

theorem dies_iff : n.dies = true ↔ ∃ s ∈ n.subsets, ∃ a ∈ n.alphabet, n.image s a = ∅ := by
  simp only [dies, List.any_eq_true, Option.isNone_iff_eq_none, follow?_eq_none_iff,
    Std.ExtTreeSet.mem_toList]

end Sets

section Places

theorem getElem?_subsetStates_none (dies : n.dies = true) :
    n.subsetStates[n.subsets.length]? = some none :=
  Dfa.getElem?_withDead_none dies

theorem dead_determinize_iff :
    n.determinize.dead = some q ↔ q = n.subsets.length ∧ n.dies = true := by
  rw [determinize, Dfa.ofStates]
  split
  · next dies => simp [dies, eq_comm]
  · next lives => simp [lives]

theorem next?_determinize {x : Option StateSet} {j : StateId} (hi : n.subsetStates[i]? = some x)
    (ha : a ∈ n.alphabet) (hj : n.subsetStates[j]? = some (n.subsetNext x a)) :
    n.determinize.next? i a = some j :=
  Dfa.next?_of_getElem? n.enumerates_subsetStates.nodup hi ha hj

theorem mem_accepting_determinize {x : Option StateSet} (hi : n.subsetStates[i]? = some x) :
    i ∈ n.determinize.accepting ↔ n.subsetAccepts x = true :=
  Dfa.mem_accepting_of_getElem? n.enumerates_subsetStates.nodup hi

end Places

/-- The sets are closed under silent moves, the first is that of the start, and they are the live
sets of the words over the alphabet, each listed once.  The empty set may be left out. -/
structure ListsLiveSets (n : Nfa) (sets : List StateSet) : Prop where
  nodup : sets.Nodup
  isClosed : ∀ s ∈ sets, n.IsClosed s
  head?_eq : sets.head? = some (n.closure (n.start.elim ∅ fun q => {q}))
  exists_word : ∀ s ∈ sets, ∃ w, (∀ a ∈ w, a ∈ n.alphabet) ∧ n.IsLiveSet w s
  mem_of_isLiveSet : ∀ w, (∀ a ∈ w, a ∈ n.alphabet) → ∀ s, n.IsLiveSet w s → s ≠ ∅ → s ∈ sets

/-- The states of `d` are the places of the sets, and after them a dead state if some set has no
move on some symbol. -/
structure IsPowersetAutomaton (n : Nfa) (sets : List StateSet) (d : Dfa) : Prop where
  wellFormed : d.WellFormed
  alphabet_eq : d.alphabet = n.alphabet
  start_eq : d.start = 0
  numStates_eq : d.numStates = sets.length + d.dead.toList.length
  dead_iff : ∀ q, d.dead = some q ↔
    q = sets.length ∧ ∃ s ∈ sets, ∃ a ∈ n.alphabet, n.step s a = .ok ∅
  accepting_iff : ∀ (i : StateId) s, sets[i]? = some s →
    (i ∈ d.accepting ↔ ∃ q ∈ s, q ∈ n.accepting)
  moves : ∀ (i : StateId) s, sets[i]? = some s → ∀ a ∈ n.alphabet, ∃ t, n.step s a = .ok t ∧
    (t ≠ ∅ → ∃ j : StateId, d.next? i a = some j ∧ sets[j]? = some (n.closure t)) ∧
    (t = ∅ → ∃ q, d.dead = some q ∧ d.next? i a = some q)
  dead_rejects : ∀ q, d.dead = some q → q ∉ d.accepting
  dead_loops : ∀ q, d.dead = some q → ∀ a ∈ n.alphabet, d.next? q a = some q
  isTotal : d.IsTotal
  reached : ∀ q < d.numStates, ∃ w, (∀ a ∈ w, a ∈ d.alphabet) ∧ d.run d.start w = some q

theorem listsLiveSets_subsets (silent : Symbol.epsilon ∉ n.alphabet) :
    n.ListsLiveSets n.subsets where
  nodup := n.nodup_subsets
  isClosed s hs := by
    obtain ⟨w, _, live⟩ := exists_liveSet_of_mem_subsets silent hs
    exact live.isClosed
  head?_eq := head?_explore _ _
  exists_word s hs := exists_liveSet_of_mem_subsets silent hs
  mem_of_isLiveSet _ hw _ live nonempty := mem_subsets_of_isLiveSet silent hw live nonempty

section Moves

variable (silent : Symbol.epsilon ∉ n.alphabet)
include silent

theorem step_of_mem_alphabet (ha : a ∈ n.alphabet) (s : StateSet) :
    n.step s a = .ok (n.image s a) := by
  have readable : a.isEpsilon = false := by
    rw [Bool.eq_false_iff, ne_eq, Symbol.isEpsilon_iff]
    intro eq
    exact silent (eq ▸ ha)
  simp [step, readable]

theorem dies_iff_step :
    n.dies = true ↔ ∃ s ∈ n.subsets, ∃ a ∈ n.alphabet, n.step s a = .ok ∅ := by
  rw [dies_iff]
  constructor
  · intro h
    obtain ⟨s, hs, a, ha, stuck⟩ := h
    exact ⟨s, hs, a, ha, stuck ▸ step_of_mem_alphabet silent ha s⟩
  · intro h
    obtain ⟨s, hs, a, ha, stuck⟩ := h
    rw [step_of_mem_alphabet silent ha, Except.ok.injEq] at stuck
    exact ⟨s, hs, a, ha, stuck⟩

end Moves

theorem exists_next?_of_image_ne_empty (hi : n.subsets[i]? = some s) (ha : a ∈ n.alphabet)
    (moves : n.image s a ≠ ∅) :
    ∃ j : StateId, n.determinize.next? i a = some j ∧
      n.subsets[j]? = some (n.closure (n.image s a)) := by
  have follows : n.follow? s a = some (n.closure (n.image s a)) := by
    cases found : n.follow? s a with
    | none => exact absurd (follow?_eq_none_iff.mp found) moves
    | some t => rw [eq_of_follow?_eq_some found]
  have listed : n.closure (n.image s a) ∈ n.subsets :=
    subsets_closed (List.mem_of_getElem? hi) (mem_followers_iff.mpr ⟨a, ha, follows⟩)
  obtain ⟨j, hj⟩ := List.mem_iff_getElem?.mp listed
  have next : n.subsetStates[j]? = some (n.subsetNext (some s) a) :=
    (getElem?_subsetStates hj).trans (congrArg some follows.symm)
  exact ⟨j, next?_determinize (getElem?_subsetStates hi) ha next, hj⟩

theorem exists_dead_of_image_eq_empty (hi : n.subsets[i]? = some s) (ha : a ∈ n.alphabet)
    (stuck : n.image s a = ∅) :
    ∃ q, n.determinize.dead = some q ∧ n.determinize.next? i a = some q := by
  have follows : n.follow? s a = none := follow?_eq_none_iff.mpr stuck
  have dies : n.dies = true := Dfa.lacks_of_step_eq_none (List.mem_of_getElem? hi) ha follows
  have next : n.subsetStates[n.subsets.length]? = some (n.subsetNext (some s) a) :=
    (getElem?_subsetStates_none dies).trans (congrArg some follows.symm)
  exact ⟨_, dead_determinize_iff.mpr ⟨rfl, dies⟩,
    next?_determinize (getElem?_subsetStates hi) ha next⟩

theorem getElem?_dead (h : n.determinize.dead = some q) : n.subsetStates[q]? = some none := by
  obtain ⟨rfl, dies⟩ := dead_determinize_iff.mp h
  exact getElem?_subsetStates_none dies

theorem numStates_determinize (n : Nfa) :
    n.determinize.numStates = n.subsets.length + n.determinize.dead.toList.length := by
  have size : n.determinize.numStates = n.subsetStates.length := rfl
  have dead : n.determinize.dead = if n.dies then some n.subsets.length else none := rfl
  rw [size, length_subsetStates, dead]
  split <;> rfl

theorem run_determinize_of_leadsTo (hi : n.subsets[i]? = some s)
    (hw : LeadsTo n.alphabet (runFrom n.follow? n.initial) w s) :
    n.determinize.run n.determinize.start w = some i := by
  obtain ⟨place, rfl⟩ := List.getElem?_eq_some_iff.mp hi
  exact ((n.places_determinize.leadsTo_iff i place w).mpr hw).run_eq

theorem exists_run_of_dead (hq : n.determinize.dead = some q) :
    ∃ w, (∀ a ∈ w, a ∈ n.alphabet) ∧ n.determinize.run n.determinize.start w = some q := by
  obtain ⟨_, dies⟩ := dead_determinize_iff.mp hq
  obtain ⟨s, hs, a, ha, stuck⟩ := dies_iff.mp dies
  obtain ⟨i, hi⟩ := List.mem_iff_getElem?.mp hs
  obtain ⟨w, hw⟩ := mem_subsets_iff.mp hs
  obtain ⟨t, ht, move⟩ := exists_dead_of_image_eq_empty hi ha stuck
  obtain rfl : t = q := Option.some.inj (ht.symm.trans hq)
  refine ⟨w ++ [a], ?_, ?_⟩
  · simpa [or_imp, forall_and, ha] using hw.spelled
  · rw [Dfa.run_append, run_determinize_of_leadsTo hi hw, Option.bind_some, Dfa.run, move]
    rfl

theorem exists_run_determinize (hq : q < n.determinize.numStates) :
    ∃ w, (∀ a ∈ w, a ∈ n.alphabet) ∧ n.determinize.run n.determinize.start w = some q := by
  by_cases dead : n.determinize.dead = some q
  · exact exists_run_of_dead dead
  · obtain ⟨w, hw⟩ := n.numberedByWords_determinize.reached q hq dead
    exact ⟨w, hw.spelled, hw.run_eq⟩

theorem isPowersetAutomaton_determinize (h : n.WellFormed) :
    n.IsPowersetAutomaton n.subsets n.determinize where
  wellFormed := h.determinize
  alphabet_eq := rfl
  start_eq := rfl
  numStates_eq := n.numStates_determinize
  dead_iff q :=
    dead_determinize_iff.trans (and_congr_right fun _ => dies_iff_step h.epsilon_not_mem)
  accepting_iff i s hi := by
    rw [mem_accepting_determinize (getElem?_subsetStates hi)]
    exact s.meets_iff n.accepting
  moves i s hi a ha := by
    refine ⟨_, step_of_mem_alphabet h.epsilon_not_mem ha s, ?_, ?_⟩
    · exact exists_next?_of_image_ne_empty hi ha
    · exact exists_dead_of_image_eq_empty hi ha
  dead_rejects q hq := by
    rw [mem_accepting_determinize (getElem?_dead hq)]
    simp [subsetAccepts]
  dead_loops q hq a ha := next?_determinize (getElem?_dead hq) ha (getElem?_dead hq)
  isTotal := n.enumerates_subsetStates.isTotal
  reached q hq := exists_run_determinize hq

/-- Subset construction ends.  The sets that it expands, in the order that the record of events
shows, are the live sets of words, and the result is the powerset automaton on them. -/
theorem determinize_accessible_powerset (n : Nfa) (h : n.Built) : ∃ sets d,
    Completes n.followers [n.initial] sets ∧
    (Traced.determinize n).events = (sets.zipIdx.map fun (s, i) => .subsetExpanded i s) ++
      [.determinized n.numStates d.numStates d.dead.isSome] ∧
    (Traced.determinize n).result = .ok d ∧
    n.ListsLiveSets sets ∧ n.IsPowersetAutomaton sets d :=
  ⟨n.subsets, n.determinize, n.completes_subsets, rfl, rfl,
    listsLiveSets_subsets h.wellFormed.epsilon_not_mem,
    isPowersetAutomaton_determinize h.wellFormed⟩

/-- Two states without a name, with a silent move back to the first, beside a symbol that no move
reads. -/
def silentLoopBeside : Nfa :=
  ((((Nfa.ofAlphabet (.ofList ['b'])).addEdge ⟨0, 'a', 1⟩).addSilent 1 0).setStart 0).addAccepting 1

theorem determinize_accessible_powerset_silentLoopBeside : silentLoopBeside.Built ∧
    silentLoopBeside.determinize.dead = some 2 ∧ ∃ sets d,
      Completes silentLoopBeside.followers [silentLoopBeside.initial] sets ∧
      (Traced.determinize silentLoopBeside).events =
        (sets.zipIdx.map fun (s, i) => .subsetExpanded i s) ++
        [.determinized silentLoopBeside.numStates d.numStates d.dead.isSome] ∧
      (Traced.determinize silentLoopBeside).result = .ok d ∧
      silentLoopBeside.ListsLiveSets sets ∧ silentLoopBeside.IsPowersetAutomaton sets d := by
  have built : silentLoopBeside.Built :=
    .addAccepting 1 (.setStart 0 (.addEdge ⟨1, 'ε', 0⟩ (.addEdge _ (.ofAlphabet _))))
  exact ⟨built, by decide +kernel, determinize_accessible_powerset silentLoopBeside built⟩

end RightLinear.Nfa
