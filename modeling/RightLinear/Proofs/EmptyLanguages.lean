import RightLinear.Proofs.EmptinessSearch
import RightLinear.Proofs.Languages
import RightLinear.Proofs.Outcomes
import RightLinear.Proofs.PowersetAutomaton

namespace RightLinear

namespace Dfa

variable {c : Connective} {d e l r : Dfa} {ds : List Dfa}

def Accessible (d : Dfa) : Prop := ∀ q < d.numStates, d.Reaches q

theorem noneAccepting_iff : d.noneAccepting = true ↔ ∀ q, q ∉ d.accepting := by
  rw [noneAccepting, Std.ExtTreeSet.isEmpty_iff, Std.ExtTreeSet.eq_empty_iff_forall_not_mem]

theorem Accessible.noneAccepting_iff (h : d.Accessible) (formed : d.WellFormed) :
    d.noneAccepting = true ↔ ¬∃ w, d.accepts w = true := by
  rw [Dfa.noneAccepting_iff, exists_accepts_iff]
  constructor
  · intro none found
    obtain ⟨q, _, final⟩ := found
    exact none q final
  · intro unfound q final
    exact unfound ⟨q, h q (formed.accepting_lt q final), final⟩

theorem accessible_pairAutomaton (c : Connective) (l r : Dfa) :
    (pairAutomaton c l r).Accessible := by
  intro q hq
  obtain ⟨w, _, run⟩ := exists_run_pairAutomaton hq
  exact ⟨w, run⟩

theorem accessible_of_product (h : product c l r = .ok d) : d.Accessible := by
  obtain ⟨_, rfl⟩ := product_eq_ok_iff.mp h
  exact accessible_pairAutomaton c l r

theorem Accessible.foldlM_product (hd : d.Accessible) (h : ds.foldlM (product c) d = .ok e) :
    e.Accessible := by
  -- Without further operands a fold gives back the first, so that has to be accessible
  -- already.
  have step : ∀ x ∈ ds, ∀ y y' : Dfa, y.Accessible → product c y x = .ok y' → y'.Accessible :=
    fun _ _ _ _ _ made => accessible_of_product made
  exact Results.foldlM_invariant hd step h

end Dfa

namespace Nfa

theorem accessible_determinize (n : Nfa) : n.determinize.Accessible := by
  intro q hq
  obtain ⟨w, _, run⟩ := exists_run_determinize hq
  exact ⟨w, run⟩

end Nfa

namespace Dfa

variable {c : Config} {gs : List Grammar} {d : Dfa} {ds : List Dfa}

theorem accessible_of_mem_mapM
    (translated : gs.mapM (fun g => (g.toNfa c).map Nfa.determinize) = .ok ds) (hd : d ∈ ds) :
    d.Accessible := by
  obtain ⟨g, _, grown⟩ := (Results.mem_iff translated).mp hd
  obtain ⟨n, _, rfl⟩ := Results.map_eq_ok_iff.mp grown
  exact n.accessible_determinize

theorem WellFormed.noneAccepting_pairAutomaton_iff {l r : Dfa} (hl : l.WellFormed)
    (hr : r.WellFormed) (same : l.alphabet = r.alphabet) :
    (Dfa.pairAutomaton .both l r).noneAccepting = true ↔
      ¬∃ w, l.accepts w = true ∧ r.accepts w = true := by
  rw [(accessible_pairAutomaton .both l r).noneAccepting_iff (hl.pairAutomaton .both r)]
  simp only [hl.accepts_pairAutomaton hr same, Connective.combine, Bool.and_eq_true]

theorem noneAccepting_intersectionAll_iff (h : intersectionAll ds = .ok d)
    (formed : ∀ x ∈ ds, x.WellFormed) (accessible : ∀ x ∈ ds, x.Accessible) :
    d.noneAccepting = true ↔ ¬∃ w, ∀ x ∈ ds, x.accepts w = true := by
  have judge : d.noneAccepting = true ↔ ¬∃ w, d.accepts w = true := by
    cases ds with
    | nil => cases h
    | cons x xs =>
      obtain ⟨first, rest⟩ := List.forall_mem_cons.mp formed
      obtain ⟨folded, _, _⟩ := foldlM_product h first rest
      have reached : d.Accessible := (accessible x List.mem_cons_self).foldlM_product h
      exact reached.noneAccepting_iff folded
  rw [judge]
  simp only [accepts_intersectionAll h formed, List.all_eq_true]

end Dfa

namespace TestCase

variable {c : Config} {t : TestCase} {o : Outcome}

theorem emptyLanguage_iff (requested : t.request = .ok .intersection)
    (h : (t.run c).result = .ok o) :
    o.emptyLanguage = true ↔ ¬∃ w, ∀ g ∈ t.grammars, g.Generates c w := by
  obtain ⟨p, ds, d, request, translated, applied, rfl⟩ := result_run_eq_ok_iff.mp h
  obtain rfl : p = .intersection := Except.ok.inj (request.symm.trans requested)
  have represented : List.Forall₂ (Grammar.Represents · c ·) t.grammars ds :=
    (Results.forall₂ translated).imp fun _ _ => Grammar.represents_of_toNfa
  have made : Dfa.intersectionAll ds = .ok d := by
    rwa [Operation.apply, Traced.result_intersectionAll] at applied
  have judge : d.noneAccepting = true ↔ ¬∃ w, ∀ x ∈ ds, x.accepts w = true :=
    Dfa.noneAccepting_intersectionAll_iff made (Operation.forall_wellFormed represented)
      fun _ hx => Dfa.accessible_of_mem_mapM translated hx
  simpa only [Operation.forall_accepts_iff represented, beq_self_eq_true, Bool.true_and] using judge

end TestCase

/-- An intersection is without accepting states exactly if it is empty: that of two automata,
whatever moves and states they have, and that of the grammars of a test case, be it only one. -/
theorem emptyLanguage_iff_disjoint :
    (∀ l r : Dfa, l.WellFormed → r.WellFormed → l.alphabet = r.alphabet →
      ∃ i, Dfa.intersection l r = .ok i ∧
        (i.noneAccepting = true ↔ ¬∃ w, l.accepts w = true ∧ r.accepts w = true) ∧
        (i.noneAccepting = true ↔ i.isEmpty = true)) ∧
    (∀ (c : Config) (t : TestCase) (o : Outcome), t.request = .ok .intersection →
      (t.run c).result = .ok o →
      (o.emptyLanguage = true ↔ ¬∃ w, ∀ g ∈ t.grammars, g.Generates c w)) := by
  constructor
  · intro l r hl hr same
    have made : Dfa.intersection l r = .ok (Dfa.pairAutomaton .both l r) :=
      Dfa.product_eq_ok_iff.mpr ⟨same, rfl⟩
    have formed : (Dfa.pairAutomaton .both l r).WellFormed := hl.pairAutomaton .both r
    have accessible : (Dfa.pairAutomaton .both l r).Accessible :=
      Dfa.accessible_pairAutomaton .both l r
    refine ⟨_, made, hl.noneAccepting_pairAutomaton_iff hr same, ?_⟩
    rw [accessible.noneAccepting_iff formed, formed.isEmpty_iff]
  · intro c t o requested succeeded
    exact TestCase.emptyLanguage_iff requested succeeded

def endlessCase : TestCase :=
  { id := "1"
    grammars := [{ alphabet := .ofList ['a'], vars := .ofList ['S'], start := some 'S',
                   rules := [⟨'S', "aS"⟩] }]
    request := .ok .intersection }

/-- An automaton whose accepting state nothing leads to, beside one that accepts what it reads, and
a test case with a single grammar. -/
theorem emptyLanguage_iff_disjoint_unreached : ∃ l r : Dfa, l.WellFormed ∧ r.WellFormed ∧
    l.alphabet = r.alphabet ∧ l.noneAccepting = false ∧ r.accepts ['a'] = true ∧
    (∃ i, Dfa.intersection l r = .ok i ∧
      (i.noneAccepting = true ↔ ¬∃ w, l.accepts w = true ∧ r.accepts w = true) ∧
      (i.noneAccepting = true ↔ i.isEmpty = true)) ∧
    endlessCase.request = .ok .intersection ∧
    ∃ o, (endlessCase.run {}).result = .ok o ∧ o.emptyLanguage = true ∧
      (o.emptyLanguage = true ↔ ¬∃ w, ∀ g ∈ endlessCase.grammars, g.Generates {} w) := by
  have left : Dfa.unreachedFinal.finish.Built := .finish Dfa.built_unreachedFinal
  have right : (Dfa.loopDraft 'a').finish.Built := .finish (Dfa.built_loopDraft (by decide))
  have same : Dfa.unreachedFinal.finish.alphabet = (Dfa.loopDraft 'a').finish.alphabet := by
    decide +kernel
  have ⟨pair, case⟩ := emptyLanguage_iff_disjoint
  have signal : (endlessCase.run {}).result.map Outcome.emptyLanguage = .ok true := by
    decide +kernel
  obtain ⟨o, succeeds, empty⟩ := Results.map_eq_ok_iff.mp signal
  exact ⟨_, _, left.wellFormed, right.wellFormed, same, by decide +kernel, by decide +kernel,
    pair _ _ left.wellFormed right.wellFormed same, rfl, o, succeeds, empty,
    case {} endlessCase o rfl succeeds⟩

end RightLinear
