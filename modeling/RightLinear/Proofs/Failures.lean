import RightLinear.Proofs.Outcomes

namespace RightLinear

open Results (IsFirst)

namespace Grammar

variable {g : Grammar} {c : Config} {e : Error}

/-- A bad configuration fails every grammar, a missing start symbol comes before the rules, and the
first rule that spells no production is to blame for the rest. -/
inductive Fails (c : Config) (g : Grammar) : Error → Prop
  | invalidConfig {fault : ConfigFault} : c.fault? = some fault →
      Fails c g (.invalidConfig fault.message)
  | missingStart : c.fault? = none → g.start = none → Fails c g (.missingStart g.name)
  | malformedProduction {start : Symbol} {r : Rule} : c.fault? = none → g.start = some start →
      IsFirst (fun r => ¬∃ p, g.Spells c r.rhs p) g.rules r →
      Fails c g (.malformedProduction g.name r.lhs r.rhs)

theorem productions_eq_error_iff : g.productions c = .error e ↔
    ∃ r, IsFirst (fun r => ¬∃ p, g.Spells c r.rhs p) g.rules r ∧
      .malformedProduction g.name r.lhs r.rhs = e := by
  refine Results.mapM_eq_error_iff_of_blame ?_
  intro r e
  simp only [← production?_eq_some_iff]
  cases g.production? c r.rhs <;> simp

theorem toNfa_eq_error_iff : g.toNfa c = .error e ↔ g.Fails c e := by
  rw [toNfa]
  constructor
  · intro failed
    split at failed
    · next fault refused =>
      obtain rfl := Except.error.inj failed
      exact .invalidConfig refused
    · next valid missing =>
      obtain rfl := Except.error.inj failed
      exact .missingStart valid missing
    · next start valid given =>
      rw [Results.map_eq_error_iff, productions_eq_error_iff] at failed
      obtain ⟨r, first, rfl⟩ := failed
      exact .malformedProduction valid given first
  · intro fails
    cases fails with
    | invalidConfig refused => rw [refused]
    | missingStart valid missing => rw [valid, missing]
    | malformedProduction valid given first =>
      rw [valid, given]
      exact Results.map_eq_error_iff.mpr (productions_eq_error_iff.mpr ⟨_, first, rfl⟩)

end Grammar

namespace Dfa

variable {k : Connective} {d x : Dfa} {ds : List Dfa} {e : Error}

theorem product_eq_error_iff : product k d x = .error e ↔
    x.alphabet ≠ d.alphabet ∧ .alphabetMismatch d.alphabet x.alphabet = e := by
  rw [product]
  split <;> simp_all [eq_comm]

theorem foldlM_product_eq_error_iff : ds.foldlM (product k) d = .error e ↔
    ∃ b, IsFirst (· ≠ d.alphabet) (ds.map Dfa.alphabet) b ∧
      .alphabetMismatch d.alphabet b = e := by
  -- The product of the operands so far keeps the alphabet of the first one, which every later
  -- operand is measured by.
  induction ds generalizing d with
  | nil => simp [Results.not_isFirst_nil, pure, Except.pure]
  | cons x ds ih =>
    have fold : (x :: ds).foldlM (product k) d =
        (product k d x).bind fun y => ds.foldlM (product k) y := List.foldlM_cons
    rw [fold, Results.bind_eq_error_iff, product_eq_error_iff, List.map_cons]
    simp only [product_eq_ok_iff, Results.isFirst_cons_iff]
    by_cases same : x.alphabet = d.alphabet
    · have kept : (pairAutomaton k d x).alphabet = d.alphabet := rfl
      simp [same, ih, kept]
    · simp [same, Ne.symm same]

theorem foldOperands_product_eq_error_iff : foldOperands (product k) ds = .error e ↔
    ds = [] ∧ .noOperands = e ∨ ∃ a as b, ds.map Dfa.alphabet = a :: as ∧ IsFirst (· ≠ a) as b ∧
      .alphabetMismatch a b = e := by
  cases ds with
  | nil => simp [foldOperands, throw, throwThe, MonadExceptOf.throw]
  | cons d ds =>
    rw [foldOperands, foldlM_product_eq_error_iff]
    simp

end Dfa

theorem Operation.apply_eq_error_iff {o : Operation} {ds : List Dfa} {e : Error} :
    (o.apply ds).result = .error e ↔ ds = [] ∧ .noOperands = e ∨ o ≠ .complement ∧
      ∃ a as b, ds.map Dfa.alphabet = a :: as ∧ IsFirst (· ≠ a) as b ∧
        .alphabetMismatch a b = e := by
  cases o with
  | complement =>
    cases ds with
    | nil => simp [apply]
    | cons d ds => simp [apply]
  | union =>
    have folded : foldOperands (Dfa.product .either) ds = .error e ↔ _ :=
      Dfa.foldOperands_product_eq_error_iff
    rw [apply, Traced.result_unionAll]
    exact folded.trans (by simp)
  | intersection =>
    have folded : foldOperands (Dfa.product .both) ds = .error e ↔ _ :=
      Dfa.foldOperands_product_eq_error_iff
    rw [apply, Traced.result_intersectionAll]
    exact folded.trans (by simp)

namespace TestCase

variable {c : Config} {t : TestCase} {e : Error}

/-- A request that is an error comes before the grammars, and every grammar is translated, be it
used or not, before the operation looks at their alphabets.  Complement looks at none. -/
inductive Fails (c : Config) (t : TestCase) : Error → Prop
  | request {e : Error} : t.request = .error e → Fails c t e
  | grammar {o : Operation} {g : Grammar} {e : Error} : t.request = .ok o →
      IsFirst (fun g => ∃ e, g.Fails c e) t.grammars g → g.Fails c e → Fails c t e
  | noOperands {o : Operation} : t.request = .ok o → t.grammars = [] →
      Fails c t .noOperands
  | alphabetMismatch {o : Operation} {a b : SymbolSet} {as : List SymbolSet} :
      t.request = .ok o → o ≠ .complement → (∀ g ∈ t.grammars, ∀ e, ¬g.Fails c e) →
      (t.grammars.map fun g => g.alphabet.readable) = a :: as → IsFirst (· ≠ a) as b →
      Fails c t (.alphabetMismatch a b)

theorem translated_eq_error_iff {gs : List Grammar} :
    gs.mapM (fun g => (g.toNfa c).map Nfa.determinize) = .error e ↔
      ∃ g, IsFirst (fun g => ∃ e, g.Fails c e) gs g ∧ g.Fails c e := by
  simp only [Results.mapM_eq_error_iff, Results.map_eq_error_iff, Grammar.toNfa_eq_error_iff]

theorem exists_translated_iff {gs : List Grammar} :
    (∃ ds, gs.mapM (fun g => (g.toNfa c).map Nfa.determinize) = .ok ds) ↔
      ∀ g ∈ gs, ∀ e, ¬g.Fails c e := by
  rw [Results.exists_mapM_eq_ok_iff]
  simp only [Results.exists_eq_ok_iff, ne_eq, Results.map_eq_error_iff, Grammar.toNfa_eq_error_iff]

/-- Translation loses no symbol but the silent label, and adds none. -/
theorem alphabets_of_translated {gs : List Grammar} {ds : List Dfa}
    (h : gs.mapM (fun g => (g.toNfa c).map Nfa.determinize) = .ok ds) :
    ds.map Dfa.alphabet = gs.map fun g => g.alphabet.readable := by
  have made := Results.forall₂ h
  clear h
  induction made with
  | nil => rfl
  | cons first _ ih =>
    obtain ⟨n, translated, rfl⟩ := Results.map_eq_ok_iff.mp first
    have alphabet : n.determinize.alphabet = n.alphabet := rfl
    rw [List.map_cons, List.map_cons, ih, alphabet, Grammar.alphabet_of_toNfa translated]

/-- A case fails in its request, in its grammars, or in the operation on their automata. -/
theorem result_run_eq_error_iff : (t.run c).result = .error e ↔ t.request = .error e ∨
    ∃ o, t.request = .ok o ∧
      (t.grammars.mapM (fun g => (g.toNfa c).map Nfa.determinize) = .error e ∨
        ∃ ds, t.grammars.mapM (fun g => (g.toNfa c).map Nfa.determinize) = .ok ds ∧
          (o.apply ds).result = .error e) := by
  simp only [run, Traced.result_bind, Traced.result_lift, Traced.result_mapM,
    Traced.result_grammarDfa, Results.bind_eq_error_iff]
  -- What is left once the automaton is there cannot fail.
  simp only [Traced.emit, Traced.result_pure, reduceCtorEq, and_false, exists_false, or_false]

theorem fails_of_result_run (failed : (t.run c).result = .error e) : t.Fails c e := by
  rcases result_run_eq_error_iff.mp failed with refused | ⟨o, requested, untranslated | applied⟩
  · exact .request refused
  · obtain ⟨g, first, fails⟩ := translated_eq_error_iff.mp untranslated
    exact .grammar requested first fails
  · obtain ⟨ds, translated, refused⟩ := applied
    have alphabets := alphabets_of_translated translated
    rcases Operation.apply_eq_error_iff.mp refused with ⟨rfl, rfl⟩ | ⟨several, mismatch⟩
    · exact .noOperands requested (List.map_eq_nil_iff.mp alphabets.symm)
    · obtain ⟨a, as, b, split, first, rfl⟩ := mismatch
      exact .alphabetMismatch requested several (exists_translated_iff.mp ⟨ds, translated⟩)
        (alphabets ▸ split) first

theorem result_run_of_fails (fails : t.Fails c e) : (t.run c).result = .error e := by
  apply result_run_eq_error_iff.mpr
  cases fails with
  | request refused => exact Or.inl refused
  | grammar requested first fails =>
    exact Or.inr ⟨_, requested, Or.inl (translated_eq_error_iff.mpr ⟨_, first, fails⟩)⟩
  | noOperands requested empty =>
    refine Or.inr ⟨_, requested, Or.inr ⟨[], by rw [empty]; rfl, ?_⟩⟩
    exact Operation.apply_eq_error_iff.mpr (Or.inl ⟨rfl, rfl⟩)
  | alphabetMismatch requested several translates split first =>
    obtain ⟨ds, translated⟩ := exists_translated_iff.mpr translates
    have alphabets := alphabets_of_translated translated
    refine Or.inr ⟨_, requested, Or.inr ⟨ds, translated, ?_⟩⟩
    exact Operation.apply_eq_error_iff.mpr
      (Or.inr ⟨several, _, _, _, alphabets.trans split, first, rfl⟩)

/-- A case fails with just the error that its first cause has, and succeeds where there is no
cause. -/
theorem result_run_eq_error_iff_fails (c : Config) (t : TestCase) :
    (∀ e, (t.run c).result = .error e ↔ t.Fails c e) ∧
    ((∃ o, (t.run c).result = .ok o) ↔ ∀ e, ¬t.Fails c e) := by
  have fails (e : Error) : (t.run c).result = .error e ↔ t.Fails c e :=
    ⟨fails_of_result_run, result_run_of_fails⟩
  refine ⟨fails, ?_⟩
  rw [Results.exists_eq_ok_iff]
  exact forall_congr' fun e => not_congr (fails e)

/-- Complement looks at the first grammar only, but the second one is translated before. -/
example : ((⟨"1", [{ start := some 'S' }, { name := "B" }], .ok .complement⟩ :
    TestCase).run {}).result = .error (.missingStart "B") := by decide +kernel

end TestCase

end RightLinear
