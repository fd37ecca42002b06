import RightLinear.Proofs.WrittenLines

namespace RightLinear.Document

open Reader

/-- The test case `t` is open, and those of `done` lie before it. -/
structure InCase (done : List TestCase) (t : TestCase) (r : Reader) : Prop where
  finished : r.finished = done
  current : r.current = some t

structure InSection (s : Section) (done : List TestCase) (t : TestCase) (r : Reader) : Prop
    extends InCase done t r where
  opened : r.openSection = some s

abbrev InGrammar (s : Section) (done : List TestCase) (id : String) (gs : List Grammar)
    (g : Grammar) : Reader → Prop :=
  InSection s done { id := id, grammars := gs ++ [g] }

section Reading

variable {s : Section} {done : List TestCase} {id : String} {gs : List Grammar}

theorem reads_section {t t' : TestCase} {lines : List String}
    (body : Reads (InSection s done t) lines (InSection s done t')) :
    Reads (InCase done t) (heading s :: lines) (InCase done t') := by
  have first : Reads (InCase done t) [heading s] (InSection s done t) := by
    apply Reads.line (means_heading s)
    intro r hr
    exact ⟨{ r with openSection := some s }, by simp [Reader.read],
      ⟨⟨hr.finished, hr.current⟩, rfl⟩⟩
  exact (first.seq body).weaken fun _ hr => hr.toInCase

theorem reads_content (f : Grammar → Grammar) {text : String} {cs : List Char} {g g' : Grammar}
    (means : Means text (.content cs))
    (step : ∀ r : Reader, r.openSection = some s → r.readContent cs = r.modifyGrammar f)
    (changed : f g = g') :
    Reads (InGrammar s done id gs g) [text] (InGrammar s done id gs g') := by
  apply Reads.line means
  intro r hr
  have modified : r.modifyGrammar f =
      .ok { r with current := some { id := id, grammars := gs ++ [g'] } } := by
    simp [modifyGrammar, hr.current, changed]
  exact ⟨_, (step r hr.opened).trans modified, ⟨hr.finished, rfl⟩, hr.opened⟩

theorem symbols_singleton {a : Symbol} (h : a.OpensLine) (bar : a ≠ '|') :
    symbols [a] = .ok [a] := by
  rw [symbols, Text.words_of_isToken (Text.isToken_singleton.mpr h.plain)]
  simp [symbol, Symbol.ofText?, bar, Except.bind]

theorem reads_symbols (put : SymbolSet → Grammar) (update : List Symbol → Grammar → Grammar)
    (content : ∀ (r : Reader) (cs : List Char), r.openSection = some s →
      r.readContent cs = (symbols cs).bind fun as => r.modifyGrammar (update as))
    (update_put : ∀ as set, update as (put set) = put (set.insertMany as))
    {set : SymbolSet} (plain : ∀ a ∈ set, Text.isBlank a = false ∧ a ≠ '|')
    (unmarked : ∀ a ∈ set, a.Unmarked) :
    Reads (InGrammar s done id gs (put ∅)) (set.toList.map fun a => a.toString)
      (InGrammar s done id gs (put set)) := by
  have all : (∅ : SymbolSet).insertMany set.toList = set := by
    apply Std.ExtTreeSet.ext_mem
    simp
  have one (before : List Symbol) (a : Symbol) (ha : a ∈ set.toList) :
      Reads (InGrammar s done id gs (put ((∅ : SymbolSet).insertMany before))) [a.toString]
        (InGrammar s done id gs (put ((∅ : SymbolSet).insertMany (before ++ [a])))) := by
    have ha : a ∈ set := Std.ExtTreeSet.mem_toList.mp ha
    have opens : a.OpensLine := ⟨unmarked a ha, (plain a ha).1⟩
    apply reads_content (update [a]) (means_symbol opens)
    · intro r opened
      rw [content r [a] opened, symbols_singleton opens (plain a ha).2]
      rfl
    · rw [update_put]
      apply congrArg put
      apply Std.ExtTreeSet.ext_mem
      intro b
      simp [or_comm, eq_comm (a := b)]
  have run := Reads.each one
  rwa [all, ← List.map_eq_flatMap] at run

theorem reads_start {g : Grammar} {v? : Option Symbol} (h : ∀ v ∈ v?, v.OpensLine) :
    Reads (InGrammar .start done id gs { g with start := none }) (v?.toList.map fun v => v.toString)
      (InGrammar .start done id gs { g with start := v? }) := by
  cases v? with
  | none => exact Reads.nil fun _ hr => hr
  | some v =>
    have set_start (r : Reader) (opened : r.openSection = some .start) :
        r.readContent [v] = r.modifyGrammar fun g => { g with start := some v } := by
      rw [readContent, opened]
      rfl
    exact reads_content _ (means_symbol (h v rfl)) set_start rfl

theorem reads_rules {g : Grammar} {rules : List Rule} (h : ∀ r ∈ rules, r.Writable) :
    Reads (InGrammar .rules done id gs { g with rules := [] }) (rules.map ruleLine)
      (InGrammar .rules done id gs { g with rules := rules }) := by
  have one (before : List Rule) (rule : Rule) (hr : rule ∈ rules) :
      Reads (InGrammar .rules done id gs { g with rules := before }) [ruleLine rule]
        (InGrammar .rules done id gs { g with rules := before ++ [rule] }) := by
    have add_rule (r : Reader) (opened : r.openSection = some .rules) :
        r.readContent (ruleText rule) =
          r.modifyGrammar fun g => { g with rules := g.rules ++ [rule] } := by
      rw [readContent, opened]
      dsimp only
      rw [alternatives_ruleText (h rule hr)]
      rfl
    exact reads_content _ (means_ruleLine (h rule hr)) add_rule rfl
  have run := Reads.each one
  rwa [← List.map_eq_flatMap] at run

theorem reads_grammar {g : Grammar} (h : g.Writable) :
    Reads (InCase done { id := id, grammars := gs }) (grammarLines g)
      (InCase done { id := id, grammars := gs ++ [g] }) := by
  -- Every section adds its part to what the sections before it have put together.
  have header : Reads (InCase done { id := id, grammars := gs }) [g.name ++ ":"]
      (InCase done { id := id, grammars := gs ++ [{ name := g.name }] }) := by
    apply Reads.line (means_grammarHeader h.name h.initial h.no_arrow)
    intro r hr
    refine ⟨{ r with current := some _, openSection := none }, ?_, hr.finished, rfl⟩
    rw [Reader.read, hr.current]
  have alphabet : Reads (InGrammar .alphabet done id gs { name := g.name })
      (g.alphabet.toList.map fun a => a.toString)
      (InGrammar .alphabet done id gs { name := g.name, alphabet := g.alphabet }) :=
    reads_symbols (fun set => { name := g.name, alphabet := set })
      (fun as g => { g with alphabet := g.alphabet.insertMany as })
      (fun r cs opened => by rw [readContent, opened]) (fun _ _ => rfl) h.alphabet h.alphabet_unmarked
  have vars : Reads (InGrammar .vars done id gs { name := g.name, alphabet := g.alphabet })
      (g.vars.toList.map fun v => v.toString)
      (InGrammar .vars done id gs { name := g.name, alphabet := g.alphabet, vars := g.vars }) :=
    reads_symbols (fun set => { name := g.name, alphabet := g.alphabet, vars := set })
      (fun as g => { g with vars := g.vars.insertMany as })
      (fun r cs opened => by rw [readContent, opened]) (fun _ _ => rfl) h.vars h.vars_unmarked
  have start : Reads
      (InGrammar .start done id gs { name := g.name, alphabet := g.alphabet, vars := g.vars })
      (g.start.toList.map fun v => v.toString)
      (InGrammar .start done id gs { g with rules := [] }) :=
    reads_start (g := { g with rules := [] }) fun v hv => ⟨h.start_unmarked v hv, h.start v hv⟩
  have rules : Reads (InGrammar .rules done id gs { g with rules := [] }) (g.rules.map ruleLine)
      (InGrammar .rules done id gs g) :=
    reads_rules h.rules_writable
  exact (((header.seq (reads_section alphabet)).seq (reads_section vars)).seq
    (reads_section start)).seq (reads_section rules)

theorem reads_request {q : Request} (h : q.Named Request.Unmistakable) :
    Reads (InCase done { id := id, grammars := gs }) (requestLines q)
      (InCase done { id := id, grammars := gs, request := q }) := by
  have named {name : String} (means : Means name (.content name.toList))
      (same : Request.ofName name = q) :
      Reads (InSection .operation done { id := id, grammars := gs }) [name]
        (InSection .operation done { id := id, grammars := gs, request := q }) := by
    apply Reads.line means
    intro r hr
    have content : r.read (.content name.toList) = r.setRequest q := by
      rw [Reader.read, readContent, hr.opened, String.ofList_toList, same]
    have requested : r.setRequest q =
        .ok { r with current := some { id := id, grammars := gs, request := q } } := by
      rw [setRequest, hr.current]
    exact ⟨_, content.trans requested, ⟨hr.finished, rfl⟩, hr.opened⟩
  cases h with
  | known o =>
    have same : Request.ofName o.name = .ok o := by simp [Request.ofName]
    exact reads_section (named (means_operationName o) same)
  | @unknown name unmistakable =>
    have same : Request.ofName name = .error (.unknownOperation name) := by
      simp [Request.ofName, Operation.ofName?, unmistakable.no_operation]
    exact reads_section (named (means_unknownName unmistakable) same)
  | missing => exact Reads.nil fun _ hr => hr

theorem reads_case {t : TestCase} (h : t.Writable) :
    Reads (fun r => r.cases = done) (caseLines t) (fun r => r.cases = done ++ [t]) := by
  obtain ⟨digit, initial, isDigit⟩ := h.initial
  have header : Reads (fun r => r.cases = done) [t.id ++ ":"] (InCase done { id := t.id }) := by
    apply Reads.line (means_caseHeader h.id initial isDigit)
    intro r hr
    exact ⟨_, rfl, hr, rfl⟩
  have grammars : Reads (InCase done { id := t.id }) (t.grammars.flatMap grammarLines)
      (InCase done { id := t.id, grammars := t.grammars }) :=
    Reads.each (Q := fun gs => InCase done { id := t.id, grammars := gs })
      fun _ g hg => reads_grammar (h.grammars_writable g hg)
  have whole := (header.seq grammars).seq (reads_request h.request_unmistakable)
  apply whole.weaken
  intro r hr
  simp [cases, hr.finished, hr.current]

/-- The lines of a test case with a heading for its operation even where no operation is named. -/
def headedCaseLines (t : TestCase) : List String :=
  caseLines t ++ if t.request = .missing then [heading .operation] else []

theorem reads_headedCase {t : TestCase} (h : t.Writable) :
    Reads (fun r => r.cases = done) (headedCaseLines t) (fun r => r.cases = done ++ [t]) := by
  apply (reads_case h).seq
  by_cases missing : t.request = .missing
  · rw [if_pos missing]
    apply Reads.line (means_heading .operation)
    intro r hr
    exact ⟨{ r with openSection := some .operation }, by simp [Reader.read], hr⟩
  · rw [if_neg missing]
    exact Reads.nil fun _ hr => hr

theorem parse_join_flatMap {f : TestCase → List String} {ts : List TestCase}
    (step : ∀ done, ∀ t ∈ ts,
      Reads (fun r => r.cases = done) (f t) (fun r => r.cases = done ++ [t])) :
    parse (String.join ((ts.flatMap f).map fun l => l ++ "\n")) = .ok ts := by
  have run : Reads (fun r => r.cases = []) (ts.flatMap f) (fun r => r.cases = ts) :=
    Reads.each (Q := fun done r => r.cases = done) step
  refine parse_join ⟨run.1, fun r start => run.2 r ?_⟩
  rw [start]
  rfl

end Reading

def headedText (ts : List TestCase) : String :=
  String.join ((ts.flatMap headedCaseLines).map fun l => l ++ "\n")

/-- A list of test cases that can be written is read back from its document as it was, whether or
not headings stand where no operation is named. -/
theorem parse_text (ts : List TestCase) (h : ∀ t ∈ ts, t.Writable) :
    parse (text ts) = .ok ts ∧ parse (headedText ts) = .ok ts :=
  ⟨parse_join_flatMap fun _ t ht => reads_case (h t ht),
    parse_join_flatMap fun _ t ht => reads_headedCase (h t ht)⟩

/-- Parts of an arrow, first letters of headers and a colon as symbols; right-hand sides that are
empty or hold an arrow. -/
def oddGrammar : Grammar where
  name := "G -"
  alphabet := .ofList ['-', 'G', '0']
  vars := .ofList [':', '>']
  start := some '|'
  rules := [⟨'-', "> -> -"⟩, ⟨'>', ""⟩, ⟨'G', ":"⟩, ⟨'0', ""⟩, ⟨'|', "->"⟩]

theorem oddGrammar_writable : oddGrammar.Writable := by
  have letters : ∀ a ∈ oddGrammar.alphabet, a = '-' ∨ a = 'G' ∨ a = '0' := by
    intro a ha
    simpa [oddGrammar] using ha
  have names : ∀ v ∈ oddGrammar.vars, v = ':' ∨ v = '>' := by
    intro v hv
    simpa [oddGrammar] using hv
  have first : ∀ v ∈ oddGrammar.start, v = '|' := by
    intro v hv
    exact (Option.some.inj hv).symm
  exact
    { name := by decide
      initial := by decide
      no_arrow := by decide
      alphabet := fun a ha => by obtain rfl | rfl | rfl := letters a ha <;> decide
      vars := fun v hv => by obtain rfl | rfl := names v hv <;> decide
      start := fun v hv => by obtain rfl := first v hv; decide
      alphabet_unmarked := fun a ha => by obtain rfl | rfl | rfl := letters a ha <;> decide
      vars_unmarked := fun v hv => by obtain rfl | rfl := names v hv <;> decide
      start_unmarked := fun v hv => by obtain rfl := first v hv; decide
      rules_writable := by decide }

/-- An operation that does not exist, and none at all. -/
def oddCases : List TestCase :=
  [{ id := "0 :"
     grammars := [oddGrammar]
     request := .error (.unknownOperation "Join:") },
   { id := "1" }]

theorem parse_text_oddCases :
    (∀ t ∈ oddCases, t.Writable) ∧
      parse (text oddCases) = .ok oddCases ∧ parse (headedText oddCases) = .ok oddCases := by
  have no_operation : ∀ o : Operation, o.name ≠ "Join:" := by
    intro o
    cases o <;> decide
  have join : Request.Unmistakable "Join:" :=
    ⟨⟨by decide, by decide, no_operation⟩, by decide, by decide, by decide, by decide⟩
  have first : TestCase.Writable
      { id := "0 :"
        grammars := [oddGrammar]
        request := .error (.unknownOperation "Join:") } :=
    { id := by decide
      initial := ⟨'0', rfl, rfl⟩
      grammars_writable := List.forall_mem_singleton.mpr oddGrammar_writable
      request_unmistakable := .unknown join }
  have second : TestCase.Writable { id := "1" } :=
    { id := by decide
      initial := ⟨'1', rfl, rfl⟩
      grammars_writable := by simp
      request_unmistakable := .missing }
  have writable : ∀ t ∈ oddCases, t.Writable := by simp [oddCases, first, second]
  exact ⟨writable, parse_text oddCases writable⟩

end RightLinear.Document
