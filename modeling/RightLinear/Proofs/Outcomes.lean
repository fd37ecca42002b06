import RightLinear.Batch.Run
import RightLinear.Proofs.GrammarAutomaton
import RightLinear.Proofs.PairAutomaton
import RightLinear.Proofs.SubsetConstruction

namespace RightLinear

/-- What an operation says of a word, by the languages of the grammars that it is applied to. -/
def Operation.Describes (c : Config) (gs : List Grammar) (w : Word) : Operation → Prop
  | .union => ∃ g ∈ gs, g.Generates c w
  | .intersection => ∀ g ∈ gs, g.Generates c w
  | .complement => ∃ g, gs.head? = some g ∧
      (∀ a ∈ w, a ∈ g.alphabet ∧ a ≠ Symbol.epsilon) ∧ ¬g.Generates c w

namespace Grammar

variable {g : Grammar} {c : Config} {n : Nfa} {d : Dfa}

/-- The automaton runs on the words over the alphabet of the grammar and accepts those that the
grammar generates. -/
structure Represents (g : Grammar) (c : Config) (d : Dfa) : Prop where
  wellFormed : d.WellFormed
  exists_run_iff : ∀ w, (∃ q, d.run d.start w = some q) ↔
    ∀ a ∈ w, a ∈ g.alphabet ∧ a ≠ Symbol.epsilon
  accepts_iff : ∀ w, d.accepts w = true ↔ g.Generates c w

theorem alphabet_of_toNfa (h : g.toNfa c = .ok n) : n.alphabet = g.alphabet.readable := by
  obtain ⟨_, start, ps, _, _, eq⟩ := toNfa_eq_ok_iff.mp h
  rw [← eq]
  rfl

theorem represents_of_toNfa (h : (g.toNfa c).map Nfa.determinize = .ok d) : g.Represents c d := by
  obtain ⟨n, translated, rfl⟩ := Results.map_eq_ok_iff.mp h
  have formed : n.WellFormed := wellFormed_of_toNfa translated
  refine ⟨formed.determinize, ?_, ?_⟩
  · intro w
    have runs : (∃ q, n.determinize.run n.determinize.start w = some q) ↔ ∀ a ∈ w, a ∈ n.alphabet :=
      n.enumerates_subsetStates.exists_run_iff (fun _ => Nfa.dead_lt_length) formed.epsilon_not_mem
    rw [runs, alphabet_of_toNfa translated]
    simp only [SymbolSet.mem_readable]
  · intro w
    rw [formed.accepts_determinize_iff, recognizes_iff_generates translated]

end Grammar

namespace Operation

variable {c : Config} {gs : List Grammar} {ds : List Dfa} {d : Dfa} {w : Word}

theorem exists_accepts_iff (h : List.Forall₂ (Grammar.Represents · c ·) gs ds) :
    (∃ d ∈ ds, d.accepts w = true) ↔ ∃ g ∈ gs, g.Generates c w := by
  induction h with
  | nil => simp
  | cons first _ ih =>
    rw [List.exists_mem_cons_iff, List.exists_mem_cons_iff, ih, first.accepts_iff]

theorem forall_accepts_iff (h : List.Forall₂ (Grammar.Represents · c ·) gs ds) :
    (∀ d ∈ ds, d.accepts w = true) ↔ ∀ g ∈ gs, g.Generates c w := by
  induction h with
  | nil => simp
  | cons first _ ih => rw [List.forall_mem_cons, List.forall_mem_cons, ih, first.accepts_iff]

theorem forall_wellFormed (h : List.Forall₂ (Grammar.Represents · c ·) gs ds) :
    ∀ d ∈ ds, d.WellFormed := by
  induction h with
  | nil => simp
  | cons first _ ih => exact List.forall_mem_cons.mpr ⟨first.wellFormed, ih⟩

theorem accepts_apply_iff (h : List.Forall₂ (Grammar.Represents · c ·) gs ds) {o : Operation}
    (applied : (o.apply ds).result = .ok d) : d.accepts w = true ↔ o.Describes c gs w := by
  cases o with
  | complement =>
    cases h with
    | nil => cases applied
    | @cons g e gs ds first _ =>
      rw [apply, Traced.result_complement] at applied
      obtain rfl := Except.ok.inj applied
      rw [first.wellFormed.accepts_complement_iff, first.exists_run_iff, Bool.eq_false_iff, ne_eq,
        first.accepts_iff, Describes]
      simp
  | union =>
    rw [apply, Traced.result_unionAll] at applied
    rw [Dfa.accepts_unionAll applied (forall_wellFormed h), List.any_eq_true, exists_accepts_iff h,
      Describes]
  | intersection =>
    rw [apply, Traced.result_intersectionAll] at applied
    rw [Dfa.accepts_intersectionAll applied (forall_wellFormed h), List.all_eq_true,
      forall_accepts_iff h, Describes]

end Operation

namespace TestCase

variable {c : Config} {t : TestCase} {o : Outcome}

/-- A case succeeds when its request is met, all its grammars are translated and the operation
applies to the automata. -/
theorem result_run_eq_ok_iff : (t.run c).result = .ok o ↔ ∃ p ds d,
    t.request = .ok p ∧
    t.grammars.mapM (fun g => (g.toNfa c).map Nfa.determinize) = .ok ds ∧
    (p.apply ds).result = .ok d ∧
    Outcome.mk t.id d (p == .intersection && d.noneAccepting) = o := by
  simp only [run, Traced.result_bind, Traced.result_lift, Traced.result_mapM,
    Traced.result_grammarDfa, Results.bind_eq_ok_iff]
  constructor
  · intro h
    obtain ⟨p, requested, ds, translated, d, applied, _, _, eq⟩ := h
    exact ⟨p, ds, d, requested, translated, applied, Except.ok.inj eq⟩
  · intro h
    obtain ⟨p, ds, d, requested, translated, applied, eq⟩ := h
    exact ⟨p, requested, ds, translated, d, applied, (), rfl, congrArg _ eq⟩

/-- The automaton of a case that succeeds is exact on every word, be it spelled in the alphabets of
the grammars or not. -/
theorem accepts_outcome_iff (c : Config) (t : TestCase) (o : Outcome)
    (h : (t.run c).result = .ok o) : ∃ p, t.request = .ok p ∧
      ∀ w, o.dfa.accepts w = true ↔ p.Describes c t.grammars w := by
  obtain ⟨p, ds, d, requested, translated, applied, rfl⟩ := result_run_eq_ok_iff.mp h
  have represented : List.Forall₂ (Grammar.Represents · c ·) t.grammars ds :=
    (Results.forall₂ translated).imp fun _ _ => Grammar.represents_of_toNfa
  refine ⟨p, requested, ?_⟩
  intro w
  exact Operation.accepts_apply_iff represented applied

/-- One grammar, whose start symbol is not declared and which has the silent label for a
terminal. -/
def complementCase : TestCase :=
  { id := "1", grammars := [Grammar.silentTerminal], request := .ok .complement }

theorem accepts_outcome_iff_complementCase : ∃ o, (complementCase.run {}).result = .ok o ∧
    ∃ p, complementCase.request = .ok p ∧
      ∀ w, o.dfa.accepts w = true ↔ p.Describes {} complementCase.grammars w := by
  have succeeds : (complementCase.run {}).result.toBool = true := by decide +kernel
  cases outcome : (complementCase.run {}).result with
  | error e =>
    rw [outcome] at succeeds
    cases succeeds
  | ok o => exact ⟨o, rfl, accepts_outcome_iff {} complementCase o outcome⟩

end TestCase

end RightLinear
