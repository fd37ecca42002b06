import RightLinear.Proofs.BuiltByHand
import RightLinear.Proofs.GrammarStates

namespace RightLinear

theorem ofList_filterMap_concat {α β : Type} [Ord β] [Std.TransOrd β] {f f' : α → Option β}
    {xs : List α} {x : α} (earlier : ∀ y ∈ xs, f' y = f y) :
    Std.ExtTreeSet.ofList ((xs ++ [x]).filterMap f') =
      (Std.ExtTreeSet.ofList (xs.filterMap f)).insertMany (f' x).toList := by
  have last : [x].filterMap f' = (f' x).toList := by
    cases found : f' x with
    | none => simp [found]
    | some y => simp [found]
  rw [List.filterMap_append, List.filterMap_congr earlier, last,
    Std.ExtTreeSet.ofList_eq_insertMany_empty, Std.ExtTreeSet.insertMany_append,
    Std.ExtTreeSet.ofList_eq_insertMany_empty]

/-- What is mentioned before the first rule, and by the productions. -/
def Grammar.mentions (g : Grammar) (start : Symbol) (ps : List (Symbol × Production)) :
    List GrammarState :=
  g.vars.toList.map .var ++ .var start :: ps.flatMap fun vp => vp.2.states vp.1

def Nfa.addProduction (n : Nfa) (c : Config) (v : Symbol) : Production → Nfa
  | .empty =>
    let lhs := n.addState v.toString
    lhs.2.addAccepting lhs.1
  | .terminal a =>
    let lhs := n.addState v.toString
    let final := lhs.2.addState (v.toString ++ c.finalSuffix)
    (final.2.addAccepting final.1).addEdge ⟨lhs.1, a, final.1⟩
  | .step a x =>
    let lhs := n.addState v.toString
    let next := lhs.2.addState x.toString
    next.2.addEdge ⟨lhs.1, a, next.1⟩

def Nfa.addVariables (n : Nfa) (vs : List Symbol) : Nfa :=
  vs.foldl (fun n v => (n.addState v.toString).2) n

namespace Nfa

variable {n : Nfa} {c : Config} {mentioned : List GrammarState}

/-- The states are those that are mentioned, in the order of their first mentions. -/
def Lists (n : Nfa) (c : Config) (mentioned : List GrammarState) : Prop :=
  n.names = (firstOccurrences mentioned).map (GrammarState.name c)

theorem addState_name (suffix : c.finalSuffix ≠ "") (listed : n.Lists c mentioned)
    (s : GrammarState) :
    n.addState (s.name c) = ((firstOccurrences (mentioned ++ [s])).idxOf s,
      { n with names := (firstOccurrences (mentioned ++ [s])).map (GrammarState.name c) }) := by
  have injective : Function.Injective (GrammarState.name c) := Grammar.name_injective suffix
  have names : n.names = (firstOccurrences mentioned).map (GrammarState.name c) := listed
  rw [addState, names, firstOccurrences_concat]
  by_cases known : s ∈ firstOccurrences mentioned
  · have distinct := (nodup_firstOccurrences mentioned).map injective
    have place : ((firstOccurrences mentioned).map (GrammarState.name c))[
        (firstOccurrences mentioned).idxOf s]? = some (s.name c) := by
      rw [List.getElem?_map, List.getElem?_idxOf known]
      rfl
    rw [if_pos known, if_pos ((List.mem_map_of_injective injective).mpr known),
      Dfa.idxOf_of_getElem? distinct place, ← names]
  · rw [if_neg known, if_neg fun h => known ((List.mem_map_of_injective injective).mp h),
      List.length_map, List.idxOf_append_of_notMem known]
    simp

theorem lists_addState (suffix : c.finalSuffix ≠ "") (listed : n.Lists c mentioned)
    (s : GrammarState) : (n.addState (s.name c)).2.Lists c (mentioned ++ [s]) := by
  rw [addState_name suffix listed]
  rfl

theorem addVariables_eq (suffix : c.finalSuffix ≠ "") (listed : n.Lists c mentioned)
    (vs : List Symbol) : n.addVariables vs = { n with
      names := (firstOccurrences (mentioned ++ vs.map .var)).map (GrammarState.name c) } := by
  induction vs generalizing n mentioned with
  | nil =>
    have names : n.names = (firstOccurrences mentioned).map (GrammarState.name c) := listed
    simp [addVariables, ← names]
  | cons v vs ih =>
    have first : n.addState v.toString = _ := addState_name suffix listed (.var v)
    refine (ih (lists_addState suffix listed (.var v))).trans ?_
    rw [GrammarState.name, first, List.append_assoc]
    rfl

theorem addEdge_eq {e : Edge} (known : e.label ≠ Symbol.epsilon → e.label ∈ n.alphabet) :
    n.addEdge e = { n with edges := n.edges.insert e } := by
  rw [addEdge]
  split
  · rfl
  · next readable => rw [insert_eq_self (known (by simpa using readable))]

theorem addProduction_eq (suffix : c.finalSuffix ≠ "") (listed : n.Lists c mentioned) {v : Symbol}
    {p : Production} (known : ∀ m ∈ p.move? v, m.1 ≠ Symbol.epsilon → m.1 ∈ n.alphabet) :
    n.addProduction c v p =
      let states := firstOccurrences (mentioned ++ p.states v)
      { n with
        names := states.map (GrammarState.name c)
        edges := n.edges.insertMany ((p.move? v).map fun m =>
          Edge.mk (states.idxOf (.var v)) m.1 (states.idxOf m.2)).toList
        accepting := n.accepting.insertMany ((p.accepting? v).map states.idxOf).toList } := by
  have lhs : n.addState v.toString = _ := addState_name suffix listed (.var v)
  have target (t : GrammarState) : (n.addState v.toString).2.addState (t.name c) =
      ((firstOccurrences (mentioned ++ [.var v, t])).idxOf t,
        { n with
          names := (firstOccurrences (mentioned ++ [.var v, t])).map (GrammarState.name c) }) := by
    have added := addState_name suffix (lists_addState suffix listed (.var v)) t
    rw [GrammarState.name, List.append_assoc] at added
    rw [added, lhs]
    rfl
  have source (t : GrammarState) : (n.addState v.toString).1 =
      (firstOccurrences (mentioned ++ [.var v, t])).idxOf (.var v) := by
    have known : .var v ∈ mentioned ++ [.var v] := List.mem_append_right _ List.mem_cons_self
    have keeps := idxOf_firstOccurrences_append known [t]
    rw [List.append_assoc] at keeps
    rw [lhs, ← keeps]
    rfl
  cases p with
  | empty =>
    rw [addProduction, lhs]
    simp [addAccepting, Production.states, Production.move?, Production.accepting?]
  | terminal a =>
    have label := known (a, .final v) rfl
    have final := target (.final v)
    rw [GrammarState.name] at final
    rw [addProduction, final, source (.final v), addEdge_eq label]
    simp [addAccepting, Production.states, Production.move?, Production.accepting?]
  | step a x =>
    have label := known (a, .var x) rfl
    have next := target (.var x)
    rw [GrammarState.name] at next
    rw [addProduction, next, source (.var x), addEdge_eq label]
    simp [Production.states, Production.move?, Production.accepting?]

end Nfa

namespace Grammar

variable {g : Grammar} {c : Config} {start v : Symbol} {ps : List (Symbol × Production)}
  {p : Production}

theorem mentions_concat :
    g.mentions start (ps ++ [(v, p)]) = g.mentions start ps ++ p.states v := by
  simp [mentions]

theorem states_eq : g.states start ps = firstOccurrences (g.mentions start ps) := rfl

theorem lists_assemble : (g.assemble c start ps).Lists c (g.mentions start ps) := rfl

theorem stateId_concat {s : GrammarState} (h : s ∈ g.states start ps) :
    g.stateId start (ps ++ [(v, p)]) s = g.stateId start ps s := by
  rw [stateId, states_eq, mentions_concat, stateId, states_eq]
  exact idxOf_firstOccurrences_append ((mem_firstOccurrences _ s).mp h) _

theorem accepting_mem_states {s : GrammarState} (h : (v, p) ∈ ps)
    (accepting : p.accepting? v = some s) : s ∈ g.states start ps := by
  cases p with
  | empty => exact Option.some.inj accepting ▸ lhs_mem_states h
  | terminal a => exact Option.some.inj accepting ▸ target_mem_states h rfl
  | step a x => cases accepting

theorem edges_assemble_concat : (g.assemble c start (ps ++ [(v, p)])).edges =
    (g.assemble c start ps).edges.insertMany ((p.move? v).map fun m =>
      Edge.mk (g.stateId start (ps ++ [(v, p)]) (.var v)) m.1
        (g.stateId start (ps ++ [(v, p)]) m.2)).toList := by
  apply ofList_filterMap_concat
  intro vp hvp
  refine Option.map_congr fun m move => ?_
  have source : g.stateId start (ps ++ [(v, p)]) (.var vp.1) = _ :=
    stateId_concat (lhs_mem_states hvp)
  have target : g.stateId start (ps ++ [(v, p)]) m.2 = _ :=
    stateId_concat (target_mem_states hvp move)
  exact congrArg₂ (fun source target => Edge.mk source m.1 target) source target

theorem accepting_assemble_concat : (g.assemble c start (ps ++ [(v, p)])).accepting =
    (g.assemble c start ps).accepting.insertMany
      ((p.accepting? v).map (g.stateId start (ps ++ [(v, p)]))).toList := by
  apply ofList_filterMap_concat
  intro vp hvp
  exact Option.map_congr fun s final => stateId_concat (accepting_mem_states hvp final)

/-- What one more production asks for is all that it changes. -/
theorem addProduction_assemble (suffix : c.finalSuffix ≠ "")
    (known : ∀ m ∈ p.move? v, m.1 ∈ g.alphabet) :
    (g.assemble c start ps).addProduction c v p = g.assemble c start (ps ++ [(v, p)]) := by
  have readable : ∀ m ∈ p.move? v, m.1 ≠ Symbol.epsilon → m.1 ∈ (g.assemble c start ps).alphabet :=
    fun m move other => (SymbolSet.mem_readable _ _).mpr ⟨known m move, other⟩
  have added := Nfa.addProduction_eq suffix lists_assemble readable
  rw [← mentions_concat] at added
  rw [added, Nfa.mk.injEq]
  refine ⟨rfl, rfl, edges_assemble_concat.symm, ?_, accepting_assemble_concat.symm⟩
  exact congrArg some (stateId_concat start_mem_states).symm

def declared (g : Grammar) (start : Symbol) : Nfa :=
  let first := ((Nfa.ofAlphabet g.alphabet).addVariables g.vars.toList).addState start.toString
  first.2.setStart first.1

def classify (g : Grammar) (c : Config) (r : Rule) : Except Error Production :=
  match g.production? c r.rhs with
  | some p => .ok p
  | none => .error (.malformedProduction g.name r.lhs r.rhs)

/-- The automaton of a grammar, to which every rule is added as it is read. -/
def translate (g : Grammar) (c : Config) : Except Error Nfa :=
  match c.fault?, g.start with
  | some fault, _ => .error (.invalidConfig fault.message)
  | none, none => .error (.missingStart g.name)
  | none, some start => g.rules.foldlM
      (fun n r => (g.classify c r).map (n.addProduction c r.lhs)) (g.declared start)

theorem productions_eq :
    g.productions c = g.rules.mapM fun r => (g.classify c r).map fun p => (r.lhs, p) := by
  rw [productions]
  congr 1
  funext r
  rw [classify]
  cases g.production? c r.rhs <;> rfl

theorem spells_of_classify {r : Rule} (h : g.classify c r = .ok p) : g.Spells c r.rhs p := by
  rw [classify] at h
  split at h
  · next q found =>
    obtain rfl := Except.ok.inj h
    exact production?_eq_some_iff.mp found
  · cases h

theorem declared_eq (suffix : c.finalSuffix ≠ "") : g.declared start = g.assemble c start [] := by
  have bare : (Nfa.ofAlphabet g.alphabet).Lists c [] := rfl
  have named := Nfa.addVariables_eq suffix bare g.vars.toList
  have listed : ((Nfa.ofAlphabet g.alphabet).addVariables g.vars.toList).Lists c
      ([] ++ g.vars.toList.map .var) := by
    rw [named]
    rfl
  have first := Nfa.addState_name suffix listed (.var start)
  rw [GrammarState.name] at first
  rw [declared, first, named]
  rfl

theorem foldlM_addProduction (suffix : c.finalSuffix ≠ "") (rules : List Rule)
    (ps : List (Symbol × Production)) :
    rules.foldlM (fun n r => (g.classify c r).map (n.addProduction c r.lhs))
        (g.assemble c start ps) =
      (rules.mapM fun r => (g.classify c r).map fun p => (r.lhs, p)).map fun qs =>
        g.assemble c start (ps ++ qs) := by
  induction rules generalizing ps with
  | nil => simp [pure, Except.pure, Except.map]
  | cons r rules ih =>
    rw [List.foldlM_cons, Results.mapM_cons]
    cases classified : g.classify c r with
    | error e => rfl
    | ok p =>
      have known := (spells_of_classify classified).label_mem (v := r.lhs)
      have added : (Except.ok p).map ((g.assemble c start ps).addProduction c r.lhs) =
          (Except.ok (g.assemble c start (ps ++ [(r.lhs, p)])) : Except Error Nfa) :=
        congrArg Except.ok (addProduction_assemble suffix known)
      rw [added]
      refine (ih (ps ++ [(r.lhs, p)])).trans ?_
      cases rules.mapM fun r => (g.classify c r).map fun p => (r.lhs, p) with
      | error e => rfl
      | ok qs => simp [Except.map, Except.bind]

/-- Making the automaton rule by rule leads to the same result, and to the same failure. -/
theorem translate_eq_toNfa (g : Grammar) (c : Config) : g.translate c = g.toNfa c := by
  rw [translate, toNfa, productions_eq]
  cases valid : c.fault? with
  | some fault => rfl
  | none =>
    cases g.start with
    | none => rfl
    | some start =>
      have suffix := finalSuffix_ne_empty valid
      dsimp only
      rw [declared_eq suffix, foldlM_addProduction suffix]
      rfl

end Grammar

end RightLinear
