import Mathlib.Data.Char
import RightLinear.Proofs.RuleOrder
import RightLinear.Proofs.Sessions

namespace RightLinear

section Mentions

variable {α : Type} [DecidableEq α]

theorem firstOccurrences_concat (xs : List α) (x : α) : firstOccurrences (xs ++ [x]) =
    if x ∈ firstOccurrences xs then firstOccurrences xs else firstOccurrences xs ++ [x] := by
  simp only [mem_firstOccurrences]
  rw [firstOccurrences, fresh_concat]
  simp [firstOccurrences]

theorem firstOccurrences_prefix (xs ys : List α) :
    firstOccurrences xs <+: firstOccurrences (xs ++ ys) := by
  induction ys using List.reverseRecOn with
  | nil => simp
  | append_singleton ys y ih =>
    rw [← List.append_assoc, firstOccurrences_concat]
    split
    · exact ih
    · exact ih.trans (List.prefix_append _ _)

theorem firstOccurrences_of_nodup {xs : List α} (distinct : xs.Nodup) :
    firstOccurrences xs = xs := by
  induction xs using List.reverseRecOn with
  | nil => rfl
  | append_singleton xs x ih =>
    obtain ⟨earlier, _, apart⟩ := List.nodup_append.mp distinct
    have unlisted : x ∉ xs := fun h => apart x h x List.mem_cons_self rfl
    rw [firstOccurrences_concat, ih earlier, if_neg unlisted]

theorem idxOf_firstOccurrences_append {xs : List α} {x : α} (h : x ∈ xs) (ys : List α) :
    (firstOccurrences (xs ++ ys)).idxOf x = (firstOccurrences xs).idxOf x := by
  obtain ⟨rest, eq⟩ := firstOccurrences_prefix xs ys
  rw [← eq, List.idxOf_append_of_mem ((mem_firstOccurrences xs x).mpr h)]

end Mentions

namespace Nfa

def varState? (n : Nfa) (v : Symbol) : Option StateId := n.stateId? v.toString

/-- The state with the name of a variable and the suffix after it. -/
def finalState? (n : Nfa) (c : Config) (v : Symbol) : Option StateId :=
  n.stateId? (v.toString ++ c.finalSuffix)

end Nfa

namespace Grammar

variable {g : Grammar} {c : Config} {start : Symbol} {ps : List (Symbol × Production)} {n : Nfa}

/-- The automaton has the states, moves and accepting states that the grammar asks for, and no
others.  States are spoken of by their names. -/
structure IsAutomaton (g : Grammar) (c : Config) (n : Nfa) : Prop where
  nodup_names : n.names.Nodup
  mem_names_iff (name : String) : name ∈ n.names ↔
    (∃ v ∈ g.vars, v.toString = name) ∨ (∃ v ∈ g.start, v.toString = name) ∨
    (∃ r ∈ g.rules, r.lhs.toString = name) ∨
    ∃ r ∈ g.rules, ∃ a, g.Spells c r.rhs (.terminal a) ∧ r.lhs.toString ++ c.finalSuffix = name
  /-- The declared variables come first, by code point. -/
  varState?_of_getElem? {i : Nat} {v : Symbol} : g.vars.toList[i]? = some v → n.varState? v = some i
  ascending : g.vars.toList.Pairwise (· < ·)
  varState?_ne_final {u v : Symbol} {q : StateId} : n.finalState? c v = some q →
    n.varState? u ≠ some q
  finalState?_inj {u v : Symbol} {q : StateId} : n.finalState? c u = some q →
    n.finalState? c v = some q → u = v
  not_mem_edges_of_final {v a : Symbol} {p q : StateId} : n.finalState? c v = some p →
    ⟨p, a, q⟩ ∉ n.edges
  mem_edges_iff (p : StateId) (a : Symbol) (q : StateId) : ⟨p, a, q⟩ ∈ n.edges ↔
    ∃ r ∈ g.rules, n.varState? r.lhs = some p ∧
      (g.Spells c r.rhs (.terminal a) ∧ n.finalState? c r.lhs = some q ∨
        ∃ x, g.Spells c r.rhs (.step a x) ∧ n.varState? x = some q)
  mem_accepting_iff (q : StateId) : q ∈ n.accepting ↔
    ∃ r ∈ g.rules, g.Spells c r.rhs .empty ∧ n.varState? r.lhs = some q ∨
      ∃ a, g.Spells c r.rhs (.terminal a) ∧ n.finalState? c r.lhs = some q
  start_eq : ∃ s q, g.start = some s ∧ n.varState? s = some q ∧ n.start = some q
  named_start : ∀ q ∈ n.start, ∃ name, n.stateName? q = some name
  named_accepting : ∀ q ∈ n.accepting, ∃ name, n.stateName? q = some name
  named_edges : ∀ e ∈ n.edges, (∃ name, n.stateName? e.source = some name) ∧
    ∃ name, n.stateName? e.target = some name
  mem_alphabet_iff (a : Symbol) : a ∈ n.alphabet ↔ a ∈ g.alphabet ∧ a ≠ Symbol.epsilon

theorem mem_states_production_iff {v : Symbol} {p : Production} {s : GrammarState} :
    s ∈ p.states v ↔ .var v = s ∨ ∃ a, p.move? v = some (a, s) := by
  rw [Production.states, List.mem_cons, eq_comm]
  rcases p.move? v with _ | ⟨b, t⟩
  · simp
  · simp [eq_comm]

theorem exists_mem_productions (hps : g.productions c = .ok ps) {r : Rule} (hr : r ∈ g.rules) :
    ∃ p, (r.lhs, p) ∈ ps := by
  obtain ⟨p, found⟩ := exists_productions_iff.mp ⟨ps, hps⟩ r hr
  exact ⟨p, (mem_productions hps).mpr ⟨r.rhs, hr, production?_eq_some_iff.mp found⟩⟩

theorem var_mem_states_iff (hps : g.productions c = .ok ps) {v : Symbol} :
    .var v ∈ g.states start ps ↔ v ∈ g.vars ∨ v = start ∨ ∃ r ∈ g.rules, r.lhs = v := by
  simp only [mem_states_iff, mem_states_production_iff, GrammarState.var.injEq, exists_eq_right]
  constructor
  · intro h
    rcases h with declared | begun | ⟨⟨u, p⟩, hp, mentioned⟩
    · exact Or.inl declared
    · exact Or.inr (Or.inl begun)
    · obtain ⟨rhs, hr, spelled⟩ := (mem_productions hps).mp hp
      rcases mentioned with lhs | ⟨a, move⟩
      · exact Or.inr (Or.inr ⟨_, hr, lhs⟩)
      · -- A step leads to a variable that is declared.
        cases p with
        | empty => cases move
        | terminal b => cases move
        | step b x =>
          obtain ⟨_, target⟩ := Prod.mk.inj (Option.some.inj move)
          exact Or.inl (GrammarState.var.inj target ▸ spelled.2.2.2)
  · intro h
    rcases h with declared | begun | ⟨r, hr, rfl⟩
    · exact Or.inl declared
    · exact Or.inr (Or.inl begun)
    · obtain ⟨p, hp⟩ := exists_mem_productions hps hr
      exact Or.inr (Or.inr ⟨_, hp, Or.inl rfl⟩)

theorem final_mem_states_iff (hps : g.productions c = .ok ps) {v : Symbol} :
    .final v ∈ g.states start ps ↔
      ∃ r ∈ g.rules, r.lhs = v ∧ ∃ a, g.Spells c r.rhs (.terminal a) := by
  simp only [mem_states_iff, mem_states_production_iff, reduceCtorEq, and_false, exists_false,
    false_or]
  constructor
  · intro h
    obtain ⟨⟨u, p⟩, hp, a, move⟩ := h
    obtain ⟨rhs, hr, spelled⟩ := (mem_productions hps).mp hp
    cases p with
    | empty => cases move
    | terminal b =>
      obtain ⟨_, target⟩ := Prod.mk.inj (Option.some.inj move)
      exact ⟨_, hr, GrammarState.final.inj target, b, spelled⟩
    | step b x =>
      obtain ⟨_, target⟩ := Prod.mk.inj (Option.some.inj move)
      cases target
  · intro h
    obtain ⟨r, hr, rfl, a, spelled⟩ := h
    exact ⟨_, (mem_productions hps).mpr ⟨_, hr, spelled⟩, a, rfl⟩

section States

variable (translated : g.toNfa c = .ok (g.assemble c start ps))

include translated

theorem stateId?_name_iff {s : GrammarState} {q : StateId} :
    (g.assemble c start ps).stateId? (s.name c) = some q ↔
      s ∈ g.states start ps ∧ g.stateId start ps s = q := by
  obtain ⟨valid, _⟩ := toNfa_eq_ok_iff.mp translated
  have names : (g.assemble c start ps).names = (g.states start ps).map (GrammarState.name c) := rfl
  rw [← (wellFormed_of_toNfa translated).stateName?_eq_some_iff, Nfa.stateName?, names,
    List.getElem?_map, Option.map_eq_some_iff]
  constructor
  · intro place
    obtain ⟨t, ht, same⟩ := place
    obtain rfl := name_injective (finalSuffix_ne_empty valid) same
    exact ⟨List.mem_of_getElem? ht, Dfa.idxOf_of_getElem? (nodup_firstOccurrences _) ht⟩
  · intro numbered
    obtain ⟨hs, rfl⟩ := numbered
    exact ⟨s, List.getElem?_idxOf hs, rfl⟩

theorem varState?_iff {v : Symbol} {q : StateId} :
    (g.assemble c start ps).varState? v = some q ↔
      .var v ∈ g.states start ps ∧ g.stateId start ps (.var v) = q :=
  stateId?_name_iff translated (s := .var v)

theorem finalState?_iff {v : Symbol} {q : StateId} :
    (g.assemble c start ps).finalState? c v = some q ↔
      .final v ∈ g.states start ps ∧ g.stateId start ps (.final v) = q :=
  stateId?_name_iff translated (s := .final v)

theorem mem_edges_iff_of_translated (hps : g.productions c = .ok ps) {p q : StateId} {a : Symbol} :
    ⟨p, a, q⟩ ∈ (g.assemble c start ps).edges ↔ ∃ r ∈ g.rules,
      (g.assemble c start ps).varState? r.lhs = some p ∧
        (g.Spells c r.rhs (.terminal a) ∧
            (g.assemble c start ps).finalState? c r.lhs = some q ∨
          ∃ x, g.Spells c r.rhs (.step a x) ∧ (g.assemble c start ps).varState? x = some q) := by
  simp only [mem_edges_assemble, varState?_iff translated, finalState?_iff translated]
  constructor
  · intro h
    obtain ⟨v, pr, t, hp, move, source, target⟩ := h
    have there : t ∈ g.states start ps := target_mem_states hp move
    obtain ⟨rhs, hr, spelled⟩ := (mem_productions hps).mp hp
    refine ⟨_, hr, ⟨lhs_mem_states hp, source⟩, ?_⟩
    cases pr with
    | empty => cases move
    | terminal b =>
      obtain ⟨rfl, rfl⟩ := Prod.mk.inj (Option.some.inj move)
      exact Or.inl ⟨spelled, there, target⟩
    | step b x =>
      obtain ⟨rfl, rfl⟩ := Prod.mk.inj (Option.some.inj move)
      exact Or.inr ⟨x, spelled, there, target⟩
  · intro h
    obtain ⟨r, hr, ⟨_, source⟩, ⟨spelled, _, target⟩ | ⟨x, spelled, _, target⟩⟩ := h
    · exact ⟨_, _, _, (mem_productions hps).mpr ⟨_, hr, spelled⟩, rfl, source, target⟩
    · exact ⟨_, _, _, (mem_productions hps).mpr ⟨_, hr, spelled⟩, rfl, source, target⟩

theorem mem_accepting_iff_of_translated (hps : g.productions c = .ok ps) {q : StateId} :
    q ∈ (g.assemble c start ps).accepting ↔ ∃ r ∈ g.rules,
      g.Spells c r.rhs .empty ∧ (g.assemble c start ps).varState? r.lhs = some q ∨
        ∃ a, g.Spells c r.rhs (.terminal a) ∧
          (g.assemble c start ps).finalState? c r.lhs = some q := by
  simp only [mem_accepting_assemble, varState?_iff translated, finalState?_iff translated]
  constructor
  · intro h
    obtain ⟨v, pr, s, hp, final, place⟩ := h
    obtain ⟨rhs, hr, spelled⟩ := (mem_productions hps).mp hp
    refine ⟨_, hr, ?_⟩
    cases pr with
    | empty =>
      obtain rfl := Option.some.inj final
      exact Or.inl ⟨spelled, lhs_mem_states hp, place⟩
    | terminal a =>
      obtain rfl := Option.some.inj final
      exact Or.inr ⟨a, spelled, target_mem_states hp rfl, place⟩
    | step a x => cases final
  · intro h
    obtain ⟨r, hr, ⟨spelled, _, place⟩ | ⟨a, spelled, _, place⟩⟩ := h
    · exact ⟨_, _, _, (mem_productions hps).mpr ⟨_, hr, spelled⟩, rfl, place⟩
    · exact ⟨_, _, _, (mem_productions hps).mpr ⟨_, hr, spelled⟩, rfl, place⟩

end States

theorem mem_names_assemble_iff (hs : g.start = some start) (hps : g.productions c = .ok ps)
    {name : String} : name ∈ (g.assemble c start ps).names ↔
      (∃ v ∈ g.vars, v.toString = name) ∨ (∃ v ∈ g.start, v.toString = name) ∨
      (∃ r ∈ g.rules, r.lhs.toString = name) ∨
      ∃ r ∈ g.rules, ∃ a, g.Spells c r.rhs (.terminal a) ∧
        r.lhs.toString ++ c.finalSuffix = name := by
  have names : (g.assemble c start ps).names = (g.states start ps).map (GrammarState.name c) := rfl
  rw [names, List.mem_map]
  constructor
  · intro h
    obtain ⟨s, listed, named⟩ := h
    cases s with
    | var v =>
      rcases (var_mem_states_iff hps).mp listed with declared | rfl | ⟨r, hr, rfl⟩
      · exact Or.inl ⟨v, declared, named⟩
      · exact Or.inr (Or.inl ⟨v, hs, named⟩)
      · exact Or.inr (Or.inr (Or.inl ⟨r, hr, named⟩))
    | final v =>
      obtain ⟨r, hr, rfl, a, spelled⟩ := (final_mem_states_iff hps).mp listed
      exact Or.inr (Or.inr (Or.inr ⟨r, hr, a, spelled, named⟩))
  · intro h
    rcases h with ⟨v, declared, named⟩ | ⟨v, begun, named⟩ | ⟨r, hr, named⟩ |
      ⟨r, hr, a, spelled, named⟩
    · exact ⟨.var v, (var_mem_states_iff hps).mpr (Or.inl declared), named⟩
    · obtain rfl := Option.some.inj (hs.symm.trans begun)
      exact ⟨.var start, start_mem_states, named⟩
    · exact ⟨.var r.lhs, (var_mem_states_iff hps).mpr (Or.inr (Or.inr ⟨r, hr, rfl⟩)), named⟩
    · exact ⟨.final r.lhs, (final_mem_states_iff hps).mpr ⟨r, hr, rfl, a, spelled⟩, named⟩

theorem getElem?_states_of_vars {i : Nat} {v : Symbol} (place : g.vars.toList[i]? = some v) :
    (g.states start ps)[i]? = some (.var v) := by
  have distinct : (g.vars.toList.map GrammarState.var).Nodup := by
    apply List.Nodup.map fun u v same => GrammarState.var.inj same
    exact g.vars.distinct_toList.imp fun unequal same => unequal (by simp [same])
  have inside : i < (g.vars.toList.map GrammarState.var).length := by
    rw [List.length_map]
    exact (List.getElem?_eq_some_iff.mp place).1
  rw [states]
  generalize GrammarState.var start :: ps.flatMap _ = mentioned
  obtain ⟨rest, front⟩ := firstOccurrences_prefix (g.vars.toList.map GrammarState.var) mentioned
  rw [firstOccurrences_of_nodup distinct] at front
  rw [← front, List.getElem?_append_left inside, List.getElem?_map, place]
  rfl

/-- The automaton of a grammar has one state for each variable that the grammar declares, starts
with or replaces, one more for each variable with a terminal rule, and the moves of its rules. -/
theorem isAutomaton_of_toNfa (g : Grammar) (c : Config) (n : Nfa) (h : g.toNfa c = .ok n) :
    g.IsAutomaton c n := by
  have wellFormed := wellFormed_of_toNfa h
  obtain ⟨valid, start, ps, hs, hps, rfl⟩ := toNfa_eq_ok_iff.mp h
  have named {q : StateId} {name : String}
      (numbered : (g.assemble c start ps).stateId? name = some q) :
      ∃ name, (g.assemble c start ps).stateName? q = some name :=
    ⟨name, wellFormed.stateName?_eq_some_iff.mpr numbered⟩
  have begins : (g.assemble c start ps).varState? start = some (g.stateId start ps (.var start)) :=
    (varState?_iff h).mpr ⟨start_mem_states, rfl⟩
  constructor
  case nodup_names => exact wellFormed.nodup_names
  case mem_names_iff => exact fun name => mem_names_assemble_iff hs hps
  case varState?_of_getElem? =>
    intro i v place
    have listed : (g.states start ps)[i]? = some (.var v) := getElem?_states_of_vars place
    apply (varState?_iff h).mpr
    exact ⟨List.mem_of_getElem? listed, Dfa.idxOf_of_getElem? (nodup_firstOccurrences _) listed⟩
  case ascending =>
    exact g.vars.ordered_toList.imp compare_lt_iff_lt.mp
  case varState?_ne_final =>
    intro u v q final var
    obtain ⟨there, place⟩ := (finalState?_iff h).mp final
    obtain ⟨_, place'⟩ := (varState?_iff h).mp var
    cases eq_of_stateId_eq there (place.trans place'.symm)
  case finalState?_inj =>
    intro u v q final final'
    obtain ⟨there, place⟩ := (finalState?_iff h).mp final
    obtain ⟨_, place'⟩ := (finalState?_iff h).mp final'
    exact GrammarState.final.inj (eq_of_stateId_eq there (place.trans place'.symm))
  case not_mem_edges_of_final =>
    intro v a p q final
    obtain ⟨there, rfl⟩ := (finalState?_iff h).mp final
    exact not_mem_edges_from_final there
  case mem_edges_iff => exact fun p a q => mem_edges_iff_of_translated h hps
  case mem_accepting_iff => exact fun q => mem_accepting_iff_of_translated h hps
  case start_eq => exact ⟨start, _, hs, begins, rfl⟩
  case named_start =>
    intro q hq
    obtain rfl := Option.some.inj hq
    exact named begins
  case named_accepting =>
    intro q hq
    obtain ⟨r, _, ⟨_, place⟩ | ⟨a, _, place⟩⟩ := (mem_accepting_iff_of_translated h hps).mp hq
    · exact named place
    · exact named place
  case named_edges =>
    intro e he
    obtain ⟨r, _, source, ⟨_, target⟩ | ⟨x, _, target⟩⟩ :=
      (mem_edges_iff_of_translated h hps).mp he
    · exact ⟨named source, named target⟩
    · exact ⟨named source, named target⟩
  case mem_alphabet_iff => exact fun a => SymbolSet.mem_readable _ _

/-- The start symbol and one left-hand side are not declared, the suffix is the name of a variable,
the silent label is a terminal, and one rule stands twice. -/
def undeclared : Grammar :=
  { name := "G", alphabet := .ofList ['a', 'ε'], vars := .ofList ['S', 'B'], start := some 'T'
    rules := [⟨'T', "εS"⟩, ⟨'S', "aB"⟩, ⟨'S', "a"⟩, ⟨'S', "a"⟩, ⟨'B', "ε"⟩, ⟨'U', "a"⟩] }

theorem isAutomaton_of_toNfa_undeclared : ∃ n,
    undeclared.toNfa { finalSuffix := "B" } = .ok n ∧
    n.names = ["B", "S", "T", "SB", "U", "UB"] ∧ n.accepting.toList = [0, 3, 5] ∧
    undeclared.IsAutomaton { finalSuffix := "B" } n := by
  have translated : undeclared.toNfa { finalSuffix := "B" } =
      .ok (undeclared.assemble { finalSuffix := "B" } 'T' [('T', .step 'ε' 'S'), ('S', .step 'a' 'B'),
        ('S', .terminal 'a'), ('S', .terminal 'a'), ('B', .empty), ('U', .terminal 'a')]) := by rfl
  exact ⟨_, translated, by decide +kernel, by decide +kernel,
    isAutomaton_of_toNfa undeclared { finalSuffix := "B" } _ translated⟩

end Grammar

end RightLinear
