import RightLinear.Proofs.GrammarAutomaton
import RightLinear.Proofs.Renumbering
import RightLinear.Traced.Automata

namespace RightLinear.Grammar

open Relator

/-- The grammars declare the same symbols and have the same rules, in whatever order and number. -/
structure Rearranges (g h : Grammar) : Prop where
  alphabet_eq : g.alphabet = h.alphabet
  vars_eq : g.vars = h.vars
  start_eq : g.start = h.start
  mem_rules_iff : ∀ r, r ∈ g.rules ↔ r ∈ h.rules

variable {g h : Grammar} {c : Config} {start : Symbol} {ps qs : List (Symbol × Production)}

theorem Rearranges.symm (same : Rearranges g h) : Rearranges h g where
  alphabet_eq := same.alphabet_eq.symm
  vars_eq := same.vars_eq.symm
  start_eq := same.start_eq.symm
  mem_rules_iff r := (same.mem_rules_iff r).symm

section Numbers

def SameState (g h : Grammar) (start : Symbol) (ps qs : List (Symbol × Production))
    (p q : StateId) : Prop :=
  ∃ s ∈ g.states start ps, g.stateId start ps s = p ∧ h.stateId start qs s = q

theorem mem_states_congr (vars : g.vars = h.vars) (same : ∀ vp, vp ∈ ps ↔ vp ∈ qs)
    (s : GrammarState) : s ∈ g.states start ps ↔ s ∈ h.states start qs := by
  rw [mem_states_iff, mem_states_iff, vars]
  simp only [same]

theorem flip_sameState (vars : g.vars = h.vars) (same : ∀ vp, vp ∈ ps ↔ vp ∈ qs) :
    flip (SameState g h start ps qs) = SameState h g start qs ps := by
  funext q p
  apply propext
  constructor
  · intro both
    obtain ⟨s, hs, hp, hq⟩ := both
    exact ⟨s, (mem_states_congr vars same s).mp hs, hq, hp⟩
  · intro both
    obtain ⟨s, hs, hq, hp⟩ := both
    exact ⟨s, (mem_states_congr vars same s).mpr hs, hp, hq⟩

theorem leftUnique_sameState (vars : g.vars = h.vars) (same : ∀ vp, vp ∈ ps ↔ vp ∈ qs) :
    LeftUnique (SameState g h start ps qs) := by
  intro p p' q both both'
  obtain ⟨s, hs, rfl, hq⟩ := both
  obtain ⟨t, _, rfl, hq'⟩ := both'
  rw [eq_of_stateId_eq ((mem_states_congr vars same s).mp hs) (hq.trans hq'.symm)]

theorem edge_of_sameState (same : ∀ vp, vp ∈ ps ↔ vp ∈ qs) {p p' q : StateId} {a : Symbol}
    (both : SameState g h start ps qs p p') (he : ⟨p, a, q⟩ ∈ (g.assemble c start ps).edges) :
    ∃ q', SameState g h start ps qs q q' ∧ ⟨p', a, q'⟩ ∈ (h.assemble c start qs).edges := by
  obtain ⟨s, hs, hp, rfl⟩ := both
  obtain ⟨v, r, t, hr, move, source, target⟩ := mem_edges_assemble.mp he
  obtain rfl : s = .var v := eq_of_stateId_eq hs (hp.trans source.symm)
  exact ⟨_, ⟨t, target_mem_states hr move, target, rfl⟩,
    mem_edges_assemble.mpr ⟨v, r, t, (same _).mp hr, move, rfl, rfl⟩⟩

theorem accepting_of_sameState (same : ∀ vp, vp ∈ ps ↔ vp ∈ qs) {p p' : StateId}
    (both : SameState g h start ps qs p p') (final : p ∈ (g.assemble c start ps).accepting) :
    p' ∈ (h.assemble c start qs).accepting := by
  obtain ⟨s, hs, hp, rfl⟩ := both
  obtain ⟨v, r, t, hr, accept, target⟩ := mem_accepting_assemble.mp final
  obtain rfl : s = t := eq_of_stateId_eq hs (hp.trans target.symm)
  exact mem_accepting_assemble.mpr ⟨v, r, s, (same _).mp hr, accept, rfl⟩

theorem renumbers_assemble (alphabet : g.alphabet = h.alphabet) (vars : g.vars = h.vars)
    (same : ∀ vp, vp ∈ ps ↔ vp ∈ qs) : Nfa.Renumbers (SameState g h start ps qs)
      (g.assemble c start ps) (h.assemble c start qs) := by
  -- What holds from the first grammar to the second holds back as well, since the hypotheses
  -- do not tell them apart.
  have back : ∀ vp, vp ∈ qs ↔ vp ∈ ps := fun vp => (same vp).symm
  have turn {p p' : StateId} (both : SameState g h start ps qs p p') :
      SameState h g start qs ps p' p := flip_sameState vars same ▸ both
  have turn' {p p' : StateId} (both : SameState h g start qs ps p' p) :
      SameState g h start ps qs p p' := flip_sameState vars.symm back ▸ both
  refine ⟨⟨leftUnique_sameState vars same, ?_⟩, ?_, ?_, ?_, ?_, ?_⟩
  · intro p q q' both both'
    exact leftUnique_sameState vars.symm back (turn both) (turn both')
  · exact congrArg SymbolSet.readable alphabet
  · exact .some ⟨_, start_mem_states, rfl, rfl⟩
  · intro p p' a q both he
    exact edge_of_sameState same both he
  · intro p p' a q' both he
    obtain ⟨q, both, he⟩ := edge_of_sameState back (turn both) he
    exact ⟨q, turn' both, he⟩
  · intro p p' both
    exact ⟨accepting_of_sameState same both, accepting_of_sameState back (turn both)⟩

end Numbers

theorem production?_congr (alphabet : g.alphabet = h.alphabet) (vars : g.vars = h.vars)
    (rhs : String) : g.production? c rhs = h.production? c rhs := by
  simp only [production?, alphabet, vars]

theorem exists_productions_iff : (∃ ps, g.productions c = .ok ps) ↔
    ∀ r ∈ g.rules, ∃ p, g.production? c r.rhs = some p := by
  rw [productions, Results.exists_mapM_eq_ok_iff]
  apply forall₂_congr
  intro r _
  cases g.production? c r.rhs <;> simp

theorem mem_productions_congr (same : Rearranges g h) (hps : g.productions c = .ok ps)
    (hqs : h.productions c = .ok qs) (vp : Symbol × Production) : vp ∈ ps ↔ vp ∈ qs := by
  rw [mem_productions hps, mem_productions hqs]
  simp only [← production?_eq_some_iff, production?_congr same.alphabet_eq same.vars_eq,
    same.mem_rules_iff]

theorem Rearranges.determinize_of_toNfa (same : Rearranges g h) {d : Dfa}
    (made : (g.toNfa c).map Nfa.determinize = .ok d) :
    (h.toNfa c).map Nfa.determinize = .ok d := by
  obtain ⟨n, translated, rfl⟩ := Results.map_eq_ok_iff.mp made
  obtain ⟨valid, start, ps, hs, hps, rfl⟩ := toNfa_eq_ok_iff.mp translated
  have classified : ∀ r ∈ h.rules, ∃ p, h.production? c r.rhs = some p := by
    intro r hr
    rw [← production?_congr same.alphabet_eq same.vars_eq]
    exact exists_productions_iff.mp ⟨ps, hps⟩ r ((same.mem_rules_iff r).mpr hr)
  obtain ⟨qs, hqs⟩ := exists_productions_iff.mpr classified
  have translated' : h.toNfa c = .ok (h.assemble c start qs) :=
    toNfa_eq_ok_iff.mpr ⟨valid, start, qs, same.start_eq ▸ hs, hqs, rfl⟩
  have renumbered : Nfa.Renumbers (SameState g h start ps qs) (g.assemble c start ps)
      (h.assemble c start qs) :=
    renumbers_assemble same.alphabet_eq same.vars_eq (mem_productions_congr same hps hqs)
  exact Results.map_eq_ok_iff.mpr ⟨_, translated', renumbered.determinize_eq.symm⟩

/-- Either both grammars have a deterministic automaton, which is then the same one with the same
numbers for its states, or neither has. -/
theorem grammarDfa_eq_ok_iff_of_rearranges (c : Config) (g h : Grammar) (same : Rearranges g h)
    (d : Dfa) : (Traced.grammarDfa c g).result = .ok d ↔ (Traced.grammarDfa c h).result = .ok d := by
  rw [Traced.result_grammarDfa, Traced.result_grammarDfa]
  exact ⟨same.determinize_of_toNfa, same.symm.determinize_of_toNfa⟩

/-- The final states of two variables, one of them not declared, are numbered by the rule that comes
first. -/
def twoFinals (rules : List Rule) : Grammar :=
  { name := "G", alphabet := .ofList ['a', 'b'], vars := .ofList ['S'], start := some 'S'
    rules := rules }

theorem grammarDfa_eq_ok_iff_of_rearranges_twoFinals : ∃ g h : Grammar, Rearranges g h ∧
    (g.toNfa {}).toOption ≠ (h.toNfa {}).toOption ∧ ∃ d,
      (Traced.grammarDfa {} g).result = .ok d ∧ (Traced.grammarDfa {} h).result = .ok d ∧
      d.numStates = 3 ∧ d.dead = some 2 ∧ d.accepting = {1} := by
  have same : Rearranges (twoFinals [⟨'S', "aS"⟩, ⟨'S', "b"⟩, ⟨'T', "a"⟩])
      (twoFinals [⟨'T', "a"⟩, ⟨'S', "b"⟩, ⟨'S', "aS"⟩, ⟨'T', "a"⟩]) :=
    ⟨rfl, rfl, rfl, by simp [twoFinals]; tauto⟩
  have agree := grammarDfa_eq_ok_iff_of_rearranges {} _ _ same
  have shape : (Traced.grammarDfa {} (twoFinals [⟨'S', "aS"⟩, ⟨'S', "b"⟩,
      ⟨'T', "a"⟩])).result.toOption.map (fun d => (d.numStates, d.dead, d.accepting)) =
      some (3, some 2, {1}) := by decide +kernel
  refine ⟨_, _, same, by decide +kernel, ?_⟩
  cases made : (Traced.grammarDfa {} (twoFinals [⟨'S', "aS"⟩, ⟨'S', "b"⟩, ⟨'T', "a"⟩])).result with
  | error e =>
    rw [made] at shape
    cases shape
  | ok d =>
    rw [made] at shape
    obtain ⟨size, dead, accepting⟩ := by simpa using Option.some.inj shape
    exact ⟨d, rfl, (agree d).mp made, size, dead, accepting⟩

end RightLinear.Grammar
