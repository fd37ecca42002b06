import RightLinear.Proofs.AccessiblePairs
import RightLinear.Proofs.ConstructionTurns
import RightLinear.Proofs.PowersetAutomaton

namespace RightLinear

section Drafts

variable {d : Draft} {moves : List (Reading × StateId)}

theorem ofList_perm {rows rows' : List (Reading × StateId)}
    (distinct : rows.Pairwise fun x y => ¬compare x.1 y.1 = .eq) (perm : rows.Perm rows') :
    (.ofList rows : Std.ExtTreeMap Reading StateId) = .ofList rows' := by
  have distinct' : rows'.Pairwise fun x y => ¬compare x.1 y.1 = .eq :=
    (perm.pairwise_iff fun apart eq => apart (Std.OrientedCmp.eq_symm eq)).mp distinct
  apply Std.ExtTreeMap.ext_getElem?
  intro k
  by_cases keyed : k ∈ rows.map Prod.fst
  · obtain ⟨⟨k, v⟩, listed, rfl⟩ := List.mem_map.mp keyed
    rw [Std.ExtTreeMap.getElem?_ofList_of_mem Std.ReflCmp.compare_self distinct listed,
      Std.ExtTreeMap.getElem?_ofList_of_mem Std.ReflCmp.compare_self distinct'
        (perm.mem_iff.mp listed)]
  · have keyed' : k ∉ rows'.map Prod.fst := fun h => keyed ((perm.map Prod.fst).mem_iff.mpr h)
    rw [Std.ExtTreeMap.getElem?_ofList_of_contains_eq_false (by simpa using keyed),
      Std.ExtTreeMap.getElem?_ofList_of_contains_eq_false (by simpa using keyed')]

theorem foldlM_addEdge {sink : StateId} {stuck : List Reading} (rows : d.table = .ofList moves)
    (silent : Symbol.epsilon ∉ d.alphabet) (known : ∀ r ∈ stuck, r.2 ∈ d.alphabet) :
    stuck.foldlM (fun d r => Draft.addEdge d ⟨r.1, r.2, sink⟩) d =
      .ok { d with table := .ofList (moves ++ stuck.map fun r => (r, sink)) } := by
  induction stuck generalizing d moves with
  | nil => simp [pure, Except.pure, ← rows]
  | cons r stuck ih =>
    obtain ⟨first, rest⟩ := List.forall_mem_cons.mp known
    have readable : r.2 ≠ Symbol.epsilon := fun eq => silent (eq ▸ first)
    rw [List.foldlM_cons, addEdge_ofList rows readable first]
    refine (ih (d := { d with table := .ofList (moves ++ [(r, sink)]) }) rfl silent rest).trans ?_
    simp

theorem addDead_ofList (rows : d.table = .ofList moves) : d.addDead = (d.numStates, { d with
      numStates := d.numStates + 1
      dead := some d.numStates
      table := .ofList (moves ++ d.alphabet.toList.map fun a =>
        ((d.numStates, a), d.numStates)) }) := by
  simp only [Draft.addDead, rows]
  simp [Std.ExtTreeMap.ofList_eq_insertMany_empty, Std.ExtTreeMap.insertMany_append]

theorem seal_of_stuck {σ : Type} {b : Building σ} (waiting : b.stuck ≠ [])
    (rows : b.draft.table = .ofList moves) (silent : Symbol.epsilon ∉ b.draft.alphabet)
    (known : ∀ r ∈ b.stuck, r.2 ∈ b.draft.alphabet) :
    b.seal = .ok (Draft.finish { b.draft with
      numStates := b.draft.numStates + 1
      dead := some b.draft.numStates
      table := .ofList ((moves ++ b.draft.alphabet.toList.map fun a =>
        ((b.draft.numStates, a), b.draft.numStates)) ++
          b.stuck.map fun r => (r, b.draft.numStates)) }) := by
  rw [Building.seal, if_neg (by simpa using waiting), addDead_ofList rows]
  refine congrArg (Except.map Draft.finish) (foldlM_addEdge ?_ ?_ ?_)
  · rfl
  · exact silent
  · exact known

end Drafts

namespace Dfa

variable {σ : Type} [DecidableEq σ] {alphabet : SymbolSet} {states : List σ} {init : σ}

section Places

variable {next : σ → Symbol → σ} {place : σ → StateId}

theorem Enumerates.rows_eq (h : Enumerates alphabet states next init)
    (places : ∀ s ∈ states, states[place s]? = some s) : rows alphabet states next =
      states.flatMap fun s => alphabet.toList.map fun a => ((place s, a), place (next s a)) := by
  apply List.flatMap_congr
  intro s hs
  apply List.map_congr_left
  intro a ha
  have inside : next s a ∈ states := h.closed s hs a (Std.ExtTreeSet.mem_toList.mp ha)
  rw [idxOf_of_getElem? h.nodup (places s hs), idxOf_of_getElem? h.nodup (places _ inside)]

theorem Enumerates.accepting_eq (h : Enumerates alphabet states next init)
    (places : ∀ s ∈ states, states[place s]? = some s) (accepts : σ → Bool)
    (dead : Option StateId) : (ofStates alphabet states next accepts dead).accepting =
      .ofList ((states.filter accepts).map place) := by
  have numbered : (states.filter accepts).map (fun s => states.idxOf s) =
      (states.filter accepts).map place := by
    apply List.map_congr_left
    intro s hs
    exact idxOf_of_getElem? h.nodup (places s (List.mem_of_mem_filter hs))
  rw [ofStates, numbered]

end Places

section Steps

variable {step : σ → Symbol → Option σ} {accepts : σ → Bool}

/-- The automaton on the places of the states, with a dead state behind them if a step is
missing. -/
def ofSteps (alphabet : SymbolSet) (states : List σ) (step : σ → Symbol → Option σ)
    (accepts : σ → Bool) : Dfa :=
  .ofStates alphabet (withDead alphabet states step) (fun x a => x.bind fun s => step s a)
    (fun x => x.any accepts) (if lacks alphabet states step then some states.length else none)

/-- The number of a state, or of the dead state. -/
def placeIn (states : List σ) (x : Option σ) : StateId := x.elim states.length states.idxOf

theorem getElem?_placeIn {x : Option σ} (hx : x ∈ withDead alphabet states step) :
    (withDead alphabet states step)[placeIn states x]? = some x := by
  rcases mem_withDead_iff.mp hx with ⟨s, hs, rfl⟩ | ⟨dies, rfl⟩
  · exact getElem?_withDead (List.getElem?_idxOf hs)
  · exact getElem?_withDead_none dies

theorem movesOn_append_perm (as : List Symbol) (s : σ) :
    (movesOn step states as s ++ (stuckOn step states as s).map fun r => (r, states.length)).Perm
      (as.map fun a => ((states.idxOf s, a), placeIn states (step s a))) := by
  rw [movesOn, stuckOn, List.map_flatMap, List.map_eq_flatMap]
  refine (List.flatMap_append_perm _ _ _).trans (List.Perm.of_eq ?_)
  congr 1
  funext a
  cases step s a <;> simp [placeIn]

/-- The rows of the table are the moves that are made, but these come in another order: the moves
into the dead state are made last. -/
theorem HoldsSteps.rows_perm (h : HoldsSteps alphabet states step init) :
    (rows alphabet (withDead alphabet states step) fun x a => x.bind fun s => step s a).Perm
      (states.flatMap (movesOn step states alphabet.toList) ++
        ((if lacks alphabet states step then
            alphabet.toList.map fun a => ((states.length, a), states.length)
          else []) ++
        (states.flatMap (stuckOn step states alphabet.toList)).map fun r =>
          (r, states.length))) := by
  have live : (states.flatMap (movesOn step states alphabet.toList) ++
      (states.flatMap (stuckOn step states alphabet.toList)).map fun r => (r, states.length)).Perm
      (states.flatMap fun s => alphabet.toList.map fun a =>
        ((states.idxOf s, a), placeIn states (step s a))) := by
    rw [List.map_flatMap]
    refine (List.flatMap_append_perm _ _ _).trans ?_
    exact List.Perm.flatMap_left _ fun s _ => movesOn_append_perm _ s
  rw [h.enumerates.rows_eq fun x hx => getElem?_placeIn hx]
  refine List.Perm.trans ?_ (List.perm_append_comm.append_left _)
  rw [← List.append_assoc]
  refine List.Perm.trans (List.Perm.of_eq ?_) (live.symm.append_right _)
  rw [withDead]
  split <;> simp [List.flatMap_append, List.flatMap_map, placeIn]

theorem HoldsSteps.accepting_ofSteps (h : HoldsSteps alphabet states step init) :
    (ofSteps alphabet states step accepts).accepting =
      .ofList ((states.filter accepts).map states.idxOf) := by
  refine (h.enumerates.accepting_eq (fun x hx => getElem?_placeIn hx) _ _).trans ?_
  rw [withDead]
  split <;> simp [List.filter_map, Function.comp_def, placeIn]

theorem HoldsSteps.wellFormed_ofSteps (h : HoldsSteps alphabet states step init)
    (silent : Symbol.epsilon ∉ alphabet) : (ofSteps alphabet states step accepts).WellFormed :=
  h.enumerates.wellFormed (fun _ => dead_lt_length_withDead) silent

theorem stuck_eq_nil_iff : states.flatMap (stuckOn step states alphabet.toList) = [] ↔
    lacks alphabet states step = false := by
  simp [stuckOn, lacks]

theorem label_mem_of_stuck {r : Reading}
    (hr : r ∈ states.flatMap (stuckOn step states alphabet.toList)) : r.2 ∈ alphabet := by
  obtain ⟨s, _, hr⟩ := List.mem_flatMap.mp hr
  obtain ⟨a, ha, hr⟩ := List.mem_flatMap.mp hr
  split at hr
  · rw [List.mem_singleton.mp hr]
    exact Std.ExtTreeSet.mem_toList.mp ha
  · cases hr

end Steps

/-- Where every state has a step on every symbol, there is no dead state. -/
theorem ofSteps_of_total {next : σ → Symbol → σ} {accepts : σ → Bool}
    (h : HoldsSteps alphabet states (fun s a => some (next s a)) init) :
    ofSteps alphabet states (fun s a => some (next s a)) accepts =
      .ofStates alphabet states next accepts none := by
  have total : lacks alphabet states (fun s a => some (next s a)) = false := by simp [lacks]
  have listed : withDead alphabet states (fun s a => some (next s a)) = states.map some := by
    simp [withDead, total]
  have moves : rows alphabet (withDead alphabet states fun s a => some (next s a))
      (fun x a => x.bind fun s => some (next s a)) = rows alphabet states next := by
    rw [h.enumerates.rows_eq fun x hx => getElem?_placeIn hx, listed, List.flatMap_map]
    rfl
  refine ext_next? ?_ rfl ?_ rfl h.accepting_ofSteps ?_
  · simp [ofSteps, ofStates, listed]
  · simp [ofSteps, ofStates, total]
  · intro q a
    simp only [ofSteps, ofStates, next?, moves]

end Dfa

section Yield

variable {σ : Type} [DecidableEq σ] {p : Blueprint σ} {step : σ → Symbol → Option σ} {all : List σ}

theorem seal_after (follows : p.Follows step)
    (listed : Dfa.HoldsSteps p.alphabet all step p.init) :
    (p.after step all all []).seal = .ok (.ofSteps p.alphabet all step p.accepts) := by
  have formed : (Dfa.ofSteps p.alphabet all step p.accepts).WellFormed :=
    listed.wellFormed_ofSteps follows.epsilon_not_mem
  have distinct := Dfa.pairwise_rows p.alphabet (fun x a => x.bind fun s => step s a)
    listed.enumerates.nodup
  have table : (Dfa.ofSteps p.alphabet all step p.accepts).table = _ :=
    ofList_perm distinct listed.rows_perm
  rw [← Dfa.finish_draft formed, Dfa.draft, listed.accepting_ofSteps, table]
  cases dies : Dfa.lacks p.alphabet all step with
  | false =>
    have settled := Dfa.stuck_eq_nil_iff.mpr dies
    simp [Building.seal, Blueprint.after, Blueprint.stage, settled, Dfa.ofSteps, Dfa.ofStates,
      Dfa.withDead, dies]
  | true =>
    have waiting : (p.after step all all []).stuck ≠ [] := by
      intro settled
      have total : Dfa.lacks p.alphabet all step = false := Dfa.stuck_eq_nil_iff.mp settled
      exact absurd (total.symm.trans dies) Bool.false_ne_true
    have known : ∀ r ∈ (p.after step all all []).stuck, r.2 ∈ p.alphabet :=
      fun _ hr => Dfa.label_mem_of_stuck hr
    rw [seal_of_stuck waiting rfl follows.epsilon_not_mem known]
    simp [Blueprint.after, Blueprint.stage, Dfa.ofSteps, Dfa.ofStates, Dfa.withDead, dies]

/-- Turn by turn the construction comes to its end with the automaton on the places of the states
that discovery lists, and each state is recorded with its place. -/
theorem Blueprint.Follows.yields_ofSteps (follows : p.Follows step)
    (listed : Dfa.HoldsSteps p.alphabet all step p.init)
    (turns : Completes (fun s => p.alphabet.toList.filterMap (step s)) [p.init] all) :
    p.Yields (.ofSteps p.alphabet all step p.accepts)
      (all.flatMap fun s => p.events (all.idxOf s) s) := by
  have begun : p.begin = p.after step all [] [p.init] := begin_eq_after follows listed.head?_eq
  refine ⟨p.after step all all [], ?_, rfl, seal_after follows listed, rfl⟩
  rw [begun]
  exact turns_after follows turns

theorem zipIdx_map {β : Type} (distinct : all.Nodup) (f : StateId → σ → β) :
    (all.zipIdx.map fun (s, i) => f i s) = all.map fun s => f (all.idxOf s) s := by
  apply List.ext_getElem
  · simp
  · intro i hi hj
    have place : i < all.length := by simpa using hj
    simp [distinct.idxOf_getElem i place]

end Yield

namespace Nfa

variable {n : Nfa}

/-- The set of live states is followed by that of one step, closed under silent moves, unless no
state is live any more. -/
def blueprint (n : Nfa) : Blueprint StateSet where
  alphabet := n.alphabet
  init := n.initial
  next? s a := (n.step s a).map fun t => if t.isEmpty then none else some (n.closure t)
  accepts s := s.meets n.accepting
  events q s := [.subsetExpanded q s]

theorem follows_blueprint (silent : Symbol.epsilon ∉ n.alphabet) :
    n.blueprint.Follows n.follow? where
  next?_eq s a ha := by
    show (n.step s a).map _ = _
    rw [step_of_mem_alphabet silent ha]
    rfl
  epsilon_not_mem := silent

/-- Subset construction may go state by state: number a set when it is met for the first time, make
its moves when its turn comes, and add the dead state at the end.  The automaton and the events are
the same. -/
theorem determinize_state_by_state (silent : Symbol.epsilon ∉ n.alphabet) : ∃ events,
    n.blueprint.Yields n.determinize events ∧ (Traced.determinize n).events =
      events ++ [.determinized n.numStates n.determinize.numStates n.determinize.dead.isSome] := by
  have yields : n.blueprint.Yields n.determinize _ :=
    (follows_blueprint silent).yields_ofSteps n.holdsSteps_subsets n.completes_subsets
  have recorded := (zipIdx_map n.nodup_subsets Event.subsetExpanded).trans List.map_eq_flatMap
  exact ⟨_, yields, congrArg (· ++ _) recorded⟩

end Nfa

namespace Dfa

variable {l r : Dfa}

def pairBlueprint (c : Connective) (l r : Dfa) : Blueprint StatePair where
  alphabet := l.alphabet
  init := (some l.start, some r.start)
  next? p a := .ok (some (nextPair l r p a))
  accepts := acceptsPair c l r
  events _ _ := []

theorem holdsSteps_pairs (l r : Dfa) : HoldsSteps l.alphabet (pairs l r)
    (fun p a => some (nextPair l r p a)) (some l.start, some r.start) where
  head?_eq := head?_explore _ _
  nodup := nodup_pairs l r
  closed _ hp _ ha _ found := Option.some.inj found ▸ nextPair_mem_pairs hp ha

/-- A product may go pair by pair in the same way.  No move waits for a dead state. -/
theorem product_pair_by_pair (c : Connective) (silent : Symbol.epsilon ∉ l.alphabet)
    (same : l.alphabet = r.alphabet) :
    ∃ d, product c l r = .ok d ∧ (pairBlueprint c l r).Yields d [] := by
  have follows : (pairBlueprint c l r).Follows fun p a => some (nextPair l r p a) :=
    ⟨fun _ _ _ => rfl, silent⟩
  have turns : Completes (fun p => l.alphabet.toList.filterMap fun a => some (nextPair l r p a))
      [(some l.start, some r.start)] (pairs l r) := by
    have moves (p : StatePair) : (l.alphabet.toList.filterMap fun a => some (nextPair l r p a)) =
        l.alphabet.toList.map fun a => nextPair l r p a := by simp
    simp only [moves]
    exact completes_pairs l r
  have automaton : ofSteps l.alphabet (pairs l r) (fun p a => some (nextPair l r p a))
      (acceptsPair c l r) = pairAutomaton c l r := ofSteps_of_total (holdsSteps_pairs l r)
  have unrecorded (place : StatePair → StateId) :
      (pairs l r).flatMap (fun p => (pairBlueprint c l r).events (place p) p) = [] :=
    List.flatMap_eq_nil_iff.mpr fun _ _ => rfl
  have yields := follows.yields_ofSteps (holdsSteps_pairs l r) turns
  rw [unrecorded] at yields
  exact ⟨pairAutomaton c l r, product_eq_ok_iff.mpr ⟨same, rfl⟩, automaton ▸ yields⟩

end Dfa

end RightLinear
