import Mathlib.Data.List.Nodup
import RightLinear.Grammar.Automaton
import RightLinear.Grammar.Derivation
import RightLinear.Proofs.LiveSets
import RightLinear.Proofs.Results

namespace RightLinear

namespace Nfa

variable {n : Nfa}

theorem Path.move {p q r : StateId} {a : Symbol} {w : Word} (he : ⟨p, a, q⟩ ∈ n.edges)
    (path : n.Path q w r) : n.Path p (terminalWord a ++ w) r := by
  by_cases ha : a = Symbol.epsilon
  · have silent : terminalWord a = [] := by simp [terminalWord, ha]
    rw [silent]
    exact .silent (ha ▸ he) path
  · have readable : terminalWord a = [a] := by simp [terminalWord, ha]
    rw [readable]
    exact .read ha he path

end Nfa

namespace Grammar

variable {g : Grammar} {c : Config} {start : Symbol} {ps : List (Symbol × Production)}

theorem mem_productions (h : g.productions c = .ok ps) {v : Symbol} {p : Production} :
    (v, p) ∈ ps ↔ ∃ rhs, ⟨v, rhs⟩ ∈ g.rules ∧ g.Spells c rhs p := by
  rw [Results.mem_iff h]
  constructor
  · intro hr
    obtain ⟨⟨u, rhs⟩, hr, found⟩ := hr
    split at found
    · next q spelled =>
      obtain ⟨rfl, rfl⟩ := Prod.mk.inj (Except.ok.inj found)
      exact ⟨rhs, hr, production?_eq_some_iff.mp spelled⟩
    · cases found
  · intro hr
    obtain ⟨rhs, hr, spelled⟩ := hr
    refine ⟨⟨v, rhs⟩, hr, ?_⟩
    rw [production?_eq_some_iff.mpr spelled]

/-- A state is numbered by its first mention. -/
def stateId (g : Grammar) (start : Symbol) (ps : List (Symbol × Production)) (s : GrammarState) :
    StateId :=
  (g.states start ps).idxOf s

theorem mem_states_iff {s : GrammarState} : s ∈ g.states start ps ↔
    (∃ v ∈ g.vars, .var v = s) ∨ s = .var start ∨ ∃ vp ∈ ps, s ∈ vp.2.states vp.1 := by
  rw [states, mem_firstOccurrences]
  simp only [List.mem_append, List.mem_cons, List.mem_map, List.mem_flatMap,
    Std.ExtTreeSet.mem_toList]

theorem start_mem_states : .var start ∈ g.states start ps :=
  mem_states_iff.mpr (Or.inr (Or.inl rfl))

theorem lhs_mem_states {v : Symbol} {p : Production} (h : (v, p) ∈ ps) :
    .var v ∈ g.states start ps := by
  refine mem_states_iff.mpr (Or.inr (Or.inr ⟨_, h, ?_⟩))
  rw [Production.states]
  exact List.mem_cons_self

theorem target_mem_states {v a : Symbol} {p : Production} {t : GrammarState} (h : (v, p) ∈ ps)
    (move : p.move? v = some (a, t)) : t ∈ g.states start ps := by
  refine mem_states_iff.mpr (Or.inr (Or.inr ⟨_, h, ?_⟩))
  rw [Production.states, move]
  simp

theorem eq_of_stateId_eq {s t : GrammarState} (hs : s ∈ g.states start ps)
    (h : g.stateId start ps s = g.stateId start ps t) : s = t :=
  (List.idxOf_inj hs).mp h

theorem mem_edges_assemble {p : StateId} {a : Symbol} {q : StateId} :
    ⟨p, a, q⟩ ∈ (g.assemble c start ps).edges ↔ ∃ v r t, (v, r) ∈ ps ∧ r.move? v = some (a, t) ∧
      g.stateId start ps (.var v) = p ∧ g.stateId start ps t = q := by
  rw [assemble, Std.ExtTreeSet.mem_ofList, List.contains_iff_mem, List.mem_filterMap]
  simp only [Option.map_eq_some_iff, Prod.exists, Edge.mk.injEq]
  constructor
  · intro h
    obtain ⟨v, r, hr, b, t, move, hp, hb, hq⟩ := h
    exact ⟨v, r, t, hr, hb ▸ move, hp, hq⟩
  · intro h
    obtain ⟨v, r, t, hr, move, hp, hq⟩ := h
    exact ⟨v, r, hr, a, t, move, hp, rfl, hq⟩

theorem mem_accepting_assemble {q : StateId} : q ∈ (g.assemble c start ps).accepting ↔
    ∃ v r s, (v, r) ∈ ps ∧ r.accepting? v = some s ∧ g.stateId start ps s = q := by
  rw [assemble, Std.ExtTreeSet.mem_ofList, List.contains_iff_mem, List.mem_filterMap]
  simp only [Option.map_eq_some_iff, Prod.exists]
  constructor
  · intro h
    obtain ⟨v, r, hr, s, final, hq⟩ := h
    exact ⟨v, r, s, hr, final, hq⟩
  · intro h
    obtain ⟨v, r, s, hr, final, hq⟩ := h
    exact ⟨v, r, hr, s, final, hq⟩

theorem not_mem_edges_from_final {v a : Symbol} {q : StateId} (hv : .final v ∈ g.states start ps) :
    ⟨g.stateId start ps (.final v), a, q⟩ ∉ (g.assemble c start ps).edges := by
  intro he
  obtain ⟨u, _, _, _, _, source, _⟩ := mem_edges_assemble.mp he
  have same : GrammarState.final v = .var u := eq_of_stateId_eq hv source.symm
  cases same

theorem eq_nil_of_path_from_final {v : Symbol} {w : Word} {q : StateId}
    (hv : .final v ∈ g.states start ps)
    (path : (g.assemble c start ps).Path (g.stateId start ps (.final v)) w q) : w = [] := by
  cases path with
  | nil => rfl
  | silent he _ => exact absurd he (not_mem_edges_from_final hv)
  | read _ he _ => exact absurd he (not_mem_edges_from_final hv)

theorem derives_nil_of_accepting (hps : g.productions c = .ok ps) {v : Symbol}
    (hv : .var v ∈ g.states start ps)
    (accept : g.stateId start ps (.var v) ∈ (g.assemble c start ps).accepting) :
    g.Derives c v [] := by
  obtain ⟨u, r, s, hr, final, hs⟩ := mem_accepting_assemble.mp accept
  have same : GrammarState.var v = s := eq_of_stateId_eq hv hs.symm
  rw [← same] at final
  cases r with
  | empty =>
    obtain rfl := GrammarState.var.inj (Option.some.inj final)
    obtain ⟨rhs, rule, spelled⟩ := (mem_productions hps).mp hr
    exact .empty rule spelled
  | terminal a => cases final
  | step a x => cases final

/-- The first move of a path is the use of a rule.  After a terminal rule the path has come to its
end; after a step it goes on in the state of the next variable. -/
theorem derives_of_move (hps : g.productions c = .ok ps) {v a : Symbol} {q r : StateId} {w : Word}
    (hv : .var v ∈ g.states start ps)
    (he : ⟨g.stateId start ps (.var v), a, q⟩ ∈ (g.assemble c start ps).edges)
    (rest : (g.assemble c start ps).Path q w r)
    (ih : ∀ x, .var x ∈ g.states start ps → g.stateId start ps (.var x) = q → g.Derives c x w) :
    g.Derives c v (terminalWord a ++ w) := by
  obtain ⟨u, p, t, hr, move, source, target⟩ := mem_edges_assemble.mp he
  have same : GrammarState.var v = .var u := eq_of_stateId_eq hv source.symm
  obtain rfl := GrammarState.var.inj same
  have ht : t ∈ g.states start ps := target_mem_states hr move
  obtain ⟨rhs, rule, spelled⟩ := (mem_productions hps).mp hr
  cases p with
  | empty => cases move
  | terminal b =>
    obtain ⟨rfl, rfl⟩ := Prod.mk.inj (Option.some.inj move)
    -- No move leaves a final state, so nothing is read after the terminal.
    rw [← target] at rest
    rw [eq_nil_of_path_from_final ht rest, List.append_nil]
    exact .terminal rule spelled
  | step b x =>
    obtain ⟨rfl, rfl⟩ := Prod.mk.inj (Option.some.inj move)
    exact .step rule spelled (ih x ht target)

theorem derives_of_path (hps : g.productions c = .ok ps) {v : Symbol} {w : Word} {q : StateId}
    (hv : .var v ∈ g.states start ps)
    (path : (g.assemble c start ps).Path (g.stateId start ps (.var v)) w q)
    (accept : q ∈ (g.assemble c start ps).accepting) : g.Derives c v w := by
  -- The variable changes along the path, with the state that the rest of the path starts in.
  generalize hp : g.stateId start ps (.var v) = p at path
  induction path generalizing v with
  | nil q =>
    rw [← hp] at accept
    exact derives_nil_of_accepting hps hv accept
  | silent he rest ih =>
    rw [← hp] at he
    have derives := derives_of_move hps hv he rest fun x hx hq => ih hx accept hq
    simpa [terminalWord] using derives
  | read ha he rest ih =>
    rw [← hp] at he
    have derives := derives_of_move hps hv he rest fun x hx hq => ih hx accept hq
    simpa [terminalWord, ha] using derives

theorem path_of_derives (hps : g.productions c = .ok ps) {v : Symbol} {w : Word}
    (derives : g.Derives c v w) : ∃ q ∈ (g.assemble c start ps).accepting,
      (g.assemble c start ps).Path (g.stateId start ps (.var v)) w q := by
  induction derives with
  | @empty v rhs rule spelled =>
    have hr : (v, .empty) ∈ ps := (mem_productions hps).mpr ⟨rhs, rule, spelled⟩
    have accept : g.stateId start ps (.var v) ∈ (g.assemble c start ps).accepting :=
      mem_accepting_assemble.mpr ⟨v, .empty, _, hr, rfl, rfl⟩
    exact ⟨_, accept, .nil _⟩
  | @terminal v a rhs rule spelled =>
    have hr : (v, .terminal a) ∈ ps := (mem_productions hps).mpr ⟨rhs, rule, spelled⟩
    have accept : g.stateId start ps (.final v) ∈ (g.assemble c start ps).accepting :=
      mem_accepting_assemble.mpr ⟨v, .terminal a, _, hr, rfl, rfl⟩
    have edge : ⟨g.stateId start ps (.var v), a, g.stateId start ps (.final v)⟩ ∈
        (g.assemble c start ps).edges :=
      mem_edges_assemble.mpr ⟨v, .terminal a, _, hr, rfl, rfl, rfl⟩
    have path := Nfa.Path.move edge (.nil _)
    rw [List.append_nil] at path
    exact ⟨_, accept, path⟩
  | @step v a x rhs w rule spelled _ ih =>
    have hr : (v, .step a x) ∈ ps := (mem_productions hps).mpr ⟨rhs, rule, spelled⟩
    have edge : ⟨g.stateId start ps (.var v), a, g.stateId start ps (.var x)⟩ ∈
        (g.assemble c start ps).edges :=
      mem_edges_assemble.mpr ⟨v, .step a x, _, hr, rfl, rfl, rfl⟩
    obtain ⟨q, accept, path⟩ := ih
    exact ⟨q, accept, .move edge path⟩

theorem recognizes_assemble_iff (hps : g.productions c = .ok ps) (hs : g.start = some start)
    {w : Word} : (g.assemble c start ps).Recognizes w ↔ g.Generates c w := by
  constructor
  · intro h
    obtain ⟨p, q, hp, path, accept⟩ := h
    obtain rfl := Option.some.inj hp
    exact ⟨start, hs, derives_of_path hps start_mem_states path accept⟩
  · intro h
    obtain ⟨s, hs', derives⟩ := h
    obtain rfl := Option.some.inj (hs.symm.trans hs')
    obtain ⟨q, accept, path⟩ := path_of_derives hps derives
    exact ⟨_, q, rfl, path, accept⟩

theorem toNfa_eq_ok_iff {n : Nfa} : g.toNfa c = .ok n ↔ c.fault? = none ∧
    ∃ start ps, g.start = some start ∧ g.productions c = .ok ps ∧ g.assemble c start ps = n := by
  rw [toNfa]
  cases c.fault? with
  | some fault => simp
  | none =>
    cases g.start with
    | none => simp
    | some start => cases g.productions c <;> simp [Except.map]

theorem recognizes_iff_generates {n : Nfa} (h : g.toNfa c = .ok n) {w : Word} :
    n.Recognizes w ↔ g.Generates c w := by
  obtain ⟨_, start, ps, hs, hps, rfl⟩ := toNfa_eq_ok_iff.mp h
  exact recognizes_assemble_iff hps hs

theorem finalSuffix_ne_empty (h : c.fault? = none) : c.finalSuffix ≠ "" := by
  intro eq
  rw [Config.fault?, eq] at h
  split at h <;> simp at h

theorem toList_name_var (c : Config) (v : Symbol) :
    (GrammarState.name c (.var v)).toList = [v] := by
  simp [GrammarState.name, Char.toString]

theorem toList_name_final (c : Config) (v : Symbol) :
    (GrammarState.name c (.final v)).toList = v :: c.finalSuffix.toList := by
  simp [GrammarState.name, Char.toString]

theorem name_injective (h : c.finalSuffix ≠ "") : Function.Injective (GrammarState.name c) := by
  intro s t eq
  have suffix : c.finalSuffix.toList ≠ [] := by simpa using h
  have texts : (s.name c).toList = (t.name c).toList := congrArg String.toList eq
  cases s with
  | var v =>
    cases t with
    | var u =>
      rw [toList_name_var, toList_name_var] at texts
      rw [(List.cons.inj texts).1]
    | final u =>
      rw [toList_name_var, toList_name_final] at texts
      exact absurd (List.cons.inj texts).2.symm suffix
  | final v =>
    cases t with
    | var u =>
      rw [toList_name_final, toList_name_var] at texts
      exact absurd (List.cons.inj texts).2 suffix
    | final u =>
      rw [toList_name_final, toList_name_final] at texts
      rw [(List.cons.inj texts).1]

theorem Spells.label_mem {rhs : String} {p : Production} {v : Symbol} (h : g.Spells c rhs p) :
    ∀ m ∈ p.move? v, m.1 ∈ g.alphabet := by
  intro m move
  cases p with
  | empty => cases move
  | terminal a => exact Option.some.inj move ▸ h.2.2
  | step a x => exact Option.some.inj move ▸ h.2.2.1

theorem wellFormed_of_toNfa {n : Nfa} (h : g.toNfa c = .ok n) : n.WellFormed := by
  obtain ⟨valid, start, ps, _, hps, rfl⟩ := toNfa_eq_ok_iff.mp h
  refine ⟨?_, ?_, ?_⟩
  · have distinct : (g.states start ps).Nodup := nodup_firstOccurrences _
    exact distinct.map (name_injective (finalSuffix_ne_empty valid))
  · intro silent
    exact ((SymbolSet.mem_readable _ _).mp silent).2 rfl
  · intro e he readable
    obtain ⟨v, r, t, hr, move, _, _⟩ := mem_edges_assemble.mp he
    obtain ⟨rhs, _, spelled⟩ := (mem_productions hps).mp hr
    exact (SymbolSet.mem_readable _ _).mpr ⟨spelled.label_mem _ move, readable⟩

/-- The automaton of a grammar answers on every word without the silent label, and it accepts just
the words that the grammar generates. -/
theorem toNfa_accepts_iff_generates (g : Grammar) (c : Config) (n : Nfa) (h : g.toNfa c = .ok n)
    (w : Word) (hw : Symbol.epsilon ∉ w) :
    ∃ b, n.accepts w = .ok b ∧ (b = true ↔ g.Generates c w) := by
  refine ⟨_, Nfa.accepts_eq hw, ?_⟩
  rw [← recognizes_iff_generates h, ← Nfa.accepts_iff_recognizes hw, Nfa.accepts_eq hw,
    Except.ok.injEq]

/-- The start symbol is not declared, and the silent label is a terminal. -/
def silentTerminal : Grammar :=
  { name := "G", alphabet := .ofList ['a', 'ε'], vars := .ofList ['S'], start := some 'T'
    rules := [⟨'T', "εS"⟩, ⟨'S', "aS"⟩, ⟨'S', "ε"⟩] }

theorem toNfa_accepts_iff_generates_silentTerminal : ∃ n, silentTerminal.toNfa {} = .ok n ∧
    Symbol.epsilon ∉ ['a', 'a'] ∧
    ∃ b, n.accepts ['a', 'a'] = .ok b ∧ (b = true ↔ silentTerminal.Generates {} ['a', 'a']) := by
  have translated : silentTerminal.toNfa {} = .ok (silentTerminal.assemble {} 'T'
      [('T', .step 'ε' 'S'), ('S', .step 'a' 'S'), ('S', .empty)]) := by rfl
  have readable : Symbol.epsilon ∉ ['a', 'a'] := by decide
  exact ⟨_, translated, readable,
    toNfa_accepts_iff_generates silentTerminal {} _ translated ['a', 'a'] readable⟩

end Grammar

end RightLinear
