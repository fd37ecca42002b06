import RightLinear.Batch.Process
import RightLinear.Proofs.Failures
import RightLinear.Proofs.ParsedCases
import RightLinear.Proofs.Reports

namespace RightLinear

section Wording

variable {b : Char}

theorem Text.not_mem_append {s t : String} (hs : b ∉ s.toList) (ht : b ∉ t.toList) :
    b ∉ (s ++ t).toList := by
  rw [String.toList_append, List.mem_append, not_or]
  exact ⟨hs, ht⟩

theorem Text.not_mem_framed {s before after : String} (hb : b ∉ before.toList)
    (hs : b ∉ s.toList) (ha : b ∉ after.toList) : b ∉ (before ++ s ++ after).toList :=
  Text.not_mem_append (Text.not_mem_append hb hs) ha

theorem Text.not_mem_intercalate {separator : String} (hs : b ∉ separator.toList)
    {ts : List String} (ht : ∀ t ∈ ts, b ∉ t.toList) : b ∉ (separator.intercalate ts).toList := by
  induction ts with
  | nil => simp
  | cons t ts ih =>
    obtain ⟨first, rest⟩ := List.forall_mem_cons.mp ht
    cases ts with
    | nil => simpa using first
    | cons s ts => simpa [String.intercalate_cons_cons, first, hs] using ih rest

theorem newline_not_mem_symbol {a : Symbol} (h : Text.isBlank a = false) :
    '\n' ∉ a.toString.toList :=
  Text.not_mem_of_isToken (Dfa.isToken_symbol h) Text.isBlank_newline

theorem SymbolSet.newline_not_mem_text {s : SymbolSet} (h : ∀ a ∈ s, Text.isBlank a = false) :
    '\n' ∉ s.text.toList := by
  have symbols : '\n' ∉ (", ".intercalate (s.toList.map fun a => a.toString)).toList := by
    apply Text.not_mem_intercalate (by decide)
    intro t ht
    obtain ⟨a, ha, rfl⟩ := List.mem_map.mp ht
    exact newline_not_mem_symbol (h a (Std.ExtTreeSet.mem_toList.mp ha))
  exact Text.not_mem_framed (by decide) symbols (by decide)

end Wording

variable {c : Config} {e : Error}

theorem Grammar.Fails.newline_not_mem_message {g : Grammar} (fails : g.Fails c e)
    (valid : c.fault? = none) (hg : g.Parsed) : '\n' ∉ e.message.toList := by
  have name : '\n' ∉ g.name.toList := hg.name.unbroken
  cases fails with
  | invalidConfig refused =>
    rw [valid] at refused
    cases refused
  | missingStart => exact Text.not_mem_framed (by decide) name (by decide)
  | @malformedProduction start r _ _ first =>
    have hr : r.Parsed := hg.rules r first.mem
    have place : '\n' ∉ ("invalid production in " ++ g.name ++ ": ").toList :=
      Text.not_mem_framed (by decide) name (by decide)
    have lhs : '\n' ∉ r.lhs.toString.toList := newline_not_mem_symbol hr.lhs
    exact Text.not_mem_append (Text.not_mem_framed place lhs (by decide)) hr.rhs.unbroken

theorem TestCase.Parsed.isBlank_of_mem_readable {t : TestCase} (ht : t.Parsed) {s : SymbolSet}
    (hs : s ∈ t.grammars.map fun g => g.alphabet.readable) :
    ∀ a ∈ s, Text.isBlank a = false := by
  obtain ⟨g, hg, rfl⟩ := List.mem_map.mp hs
  intro a ha
  have listed : a ∈ g.alphabet := ((SymbolSet.mem_readable _ a).mp ha).1
  exact ((ht.grammars g hg).alphabet a listed).1

theorem TestCase.Fails.newline_not_mem_message {t : TestCase} (fails : t.Fails c e)
    (valid : c.fault? = none) (ht : t.Parsed) : '\n' ∉ e.message.toList := by
  cases fails with
  | request refused =>
    have named := ht.request
    rw [refused] at named
    cases named with
    | unknown unheard => exact Text.not_mem_framed (by decide) unheard.fits.unbroken (by decide)
    | missing => decide
  | @grammar o g e _ first fails =>
    exact fails.newline_not_mem_message valid (ht.grammars g first.mem)
  | noOperands => decide
  | @alphabetMismatch o a b as _ _ _ whole first =>
    have text {s : SymbolSet} (hs : s ∈ t.grammars.map fun g => g.alphabet.readable) :
        '\n' ∉ s.text.toList :=
      SymbolSet.newline_not_mem_text (ht.isBlank_of_mem_readable hs)
    have left : '\n' ∉ a.text.toList := text (by simp [whole])
    have right : '\n' ∉ b.text.toList := text (by simp [whole, first.mem])
    exact Text.not_mem_append (Text.not_mem_framed (by decide) left (by decide)) right

section Results

variable {t : TestCase} {o : Outcome} {d : Dfa}

theorem Operation.wellFormed_of_apply {p : Operation} {ds : List Dfa}
    (applied : (p.apply ds).result = .ok d) (hds : ∀ x ∈ ds, x.WellFormed) :
    d.WellFormed ∧ ∃ x ∈ ds, d.alphabet = x.alphabet := by
  have folded (k : Connective) (h : foldOperands (Dfa.product k) ds = .ok d) :
      d.WellFormed ∧ ∃ x ∈ ds, d.alphabet = x.alphabet := by
    cases ds with
    | nil => cases h
    | cons x ds =>
      obtain ⟨first, rest⟩ := List.forall_mem_cons.mp hds
      obtain ⟨formed, alphabet, _⟩ := Dfa.foldlM_product h first rest
      exact ⟨formed, x, List.mem_cons_self, alphabet⟩
  cases p with
  | complement =>
    cases ds with
    | nil => cases applied
    | cons x ds =>
      rw [apply, Traced.result_complement] at applied
      obtain rfl := Except.ok.inj applied
      exact ⟨(hds x List.mem_cons_self).complement, x, List.mem_cons_self, rfl⟩
  | union =>
    rw [apply, Traced.result_unionAll] at applied
    exact folded .either applied
  | intersection =>
    rw [apply, Traced.result_intersectionAll] at applied
    exact folded .both applied

theorem TestCase.Parsed.wellFormed_legible (ht : t.Parsed) (h : (t.run c).result = .ok o) :
    o.dfa.WellFormed ∧ o.dfa.Legible := by
  obtain ⟨p, ds, d, _, translated, applied, rfl⟩ := TestCase.result_run_eq_ok_iff.mp h
  have represented : List.Forall₂ (Grammar.Represents · c ·) t.grammars ds :=
    (Results.forall₂ translated).imp fun _ _ => Grammar.represents_of_toNfa
  obtain ⟨formed, x, hx, alphabet⟩ :=
    Operation.wellFormed_of_apply applied (Operation.forall_wellFormed represented)
  have listed : d.alphabet ∈ t.grammars.map fun g => g.alphabet.readable := by
    rw [← TestCase.alphabets_of_translated translated, alphabet]
    exact List.mem_map_of_mem hx
  exact ⟨formed, ht.isBlank_of_mem_readable listed⟩

theorem TestCase.Parsed.presentable (ht : t.Parsed) (valid : c.fault? = none) :
    Batch.Presentable (t.run c).result := by
  cases h : (t.run c).result with
  | ok o =>
    obtain ⟨formed, legible⟩ := ht.wellFormed_legible h
    exact .automaton formed legible
  | error e => exact .failure ((TestCase.fails_of_result_run h).newline_not_mem_message valid ht)

end Results

namespace Batch

variable {document output : String}

theorem result_runReported (c : Config) (t : TestCase) :
    (t.runReported c).result = .ok (t.run c).result := by
  simp only [TestCase.runReported, Traced.result_bind, Traced.result_attempt]
  cases (t.run c).result <;> rfl

theorem result_runAll (c : Config) (ts : List TestCase) :
    (runAll c ts).result = .ok (ts.map fun t => (t.run c).result) := by
  rw [runAll, Traced.result_mapM]
  simp only [result_runReported]
  exact List.mapM_pure

/-- There is an output when the configuration has no fault and the document can be read, whatever
becomes of the cases. -/
theorem process_eq_ok_iff : (process c document).result = .ok output ↔ c.fault? = none ∧
    ∃ ts, Document.parse document = .ok ts ∧
      report c (ts.map fun t => (t.run c).result) = output := by
  rw [process]
  cases c.fault? with
  | some fault => simp [Except.bind]
  | none =>
    simp only [Traced.result_bind, Traced.result_lift, Traced.result_pure, result_runAll,
      Results.bind_eq_ok_iff, Except.ok.injEq, exists_eq_left', true_and]

/-- Documents with one output have as many cases as each other, and case by case they have the same
automaton or the same failure. -/
theorem sameResults_of_process (c : Config) (i j output : String)
    (hi : (process c i).result = .ok output) (hj : (process c j).result = .ok output) :
    ∃ ts us, Document.parse i = .ok ts ∧ Document.parse j = .ok us ∧
      List.Forall₂ (fun t u => SameResult (t.run c).result (u.run c).result) ts us := by
  obtain ⟨valid, ts, readi, reporti⟩ := process_eq_ok_iff.mp hi
  obtain ⟨_, us, readj, reportj⟩ := process_eq_ok_iff.mp hj
  have presentable {document : String} {ts : List TestCase}
      (read : Document.parse document = .ok ts) :
      ∀ r ∈ ts.map fun t => (t.run c).result, Presentable r := by
    intro r hr
    obtain ⟨t, ht, rfl⟩ := List.mem_map.mp hr
    exact (Document.parsed_of_parse read t ht).presentable valid
  have same := forall₂_sameResult_of_report valid (presentable readi) (presentable readj)
    (reporti.trans reportj.symm)
  rw [List.forall₂_map_left_iff, List.forall₂_map_right_iff] at same
  exact ⟨ts, us, readi, readj, same⟩

def unionDocument : String :=
  "1:\nG:\n#Alphabet\na\n#Variables\nS\n#Start\nS\n#Rules\nS -> aS | ε\n#Operation\nUnion\n2:"

def intersectionDocument : String :=
  "7:\nG:\n#Start\nS\n#Variables\nS\n#Alphabet\na\n#Rules\nS -> ε\nS -> aS\n" ++
    "#Operation\nIntersection\n8:"

def sharedOutput : String :=
  "1\n# States\nq0\n# Alphabet\na\n# Start State\nq0\n# Final States\nq0\n# Transitions\n" ++
    "q0 a q0\n\n2\n# Error\ntest case has no operation\n\n"

theorem sameResults_of_process_sharedOutput : unionDocument ≠ intersectionDocument ∧
    (process {} unionDocument).result = .ok sharedOutput ∧
    (process {} intersectionDocument).result = .ok sharedOutput ∧
    ∃ ts us, Document.parse unionDocument = .ok ts ∧
      Document.parse intersectionDocument = .ok us ∧
      List.Forall₂ (fun t u => SameResult (t.run {}).result (u.run {}).result) ts us := by
  have here : (process {} unionDocument).result = .ok sharedOutput := by decide +kernel
  have there : (process {} intersectionDocument).result = .ok sharedOutput := by decide +kernel
  exact ⟨by decide +kernel, here, there, sameResults_of_process {} _ _ _ here there⟩

end Batch

end RightLinear
