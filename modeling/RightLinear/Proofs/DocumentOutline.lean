import Mathlib.Data.Set.List
import RightLinear.Proofs.HeadedLines
import RightLinear.Proofs.ParsedCases
import RightLinear.Proofs.RuleLines

namespace RightLinear

open List (Forall₂)

/-- A line lists these rules: one for each text between bars behind the arrow, all for the variable
before it. -/
def Rule.ListedIn (text : List Char) (rules : List Rule) : Prop :=
  ∃ before after lhs, Text.splitArrow? text = some (before, after) ∧ Text.trim before = [lhs] ∧
    rules = ofAlternatives lhs after

/-- The lines of a grammar, and all that they say about it. -/
structure Grammar.Outlined (lines : List Line) (g : Grammar) : Prop where
  header : lines.head? = some (.grammarHeader g.name)
  headless : ∀ x ∈ lines.tail, x.isHeader = false
  headings : ∀ name, .sectionHeader name ∈ lines → ∃ s, Section.ofName? name = some s
  /-- Each text stands under a heading and has the form of what is listed there. -/
  contents : ∀ p ∈ Line.placed none lines, ∃ s, p.1 = some s ∧ s.Understands p.2
  alphabet : ∀ a, a ∈ g.alphabet ↔ ∃ text ∈ Line.under none lines .alphabet, [a] ∈ Text.words text
  vars : ∀ v, v ∈ g.vars ↔ ∃ text ∈ Line.under none lines .vars, [v] ∈ Text.words text
  /-- Of several texts the last one counts. -/
  start : (Line.under none lines .start).getLast? = g.start.map fun v => [v]
  rules : ∃ listed, Forall₂ Rule.ListedIn (Line.under none lines .rules) listed ∧
    g.rules = listed.flatten

/-- Before the first grammar of a test case there is nothing but names of operations. -/
structure TestCase.Front (lines : List Line) : Prop where
  headless : ∀ x ∈ lines, x.isHeader = false
  headings : ∀ name, .sectionHeader name ∈ lines → ∃ s, Section.ofName? name = some s
  contents : ∀ p ∈ Line.placed none lines, p.1 = some .operation

/-- The lines of a test case, and all that they say about it. -/
structure TestCase.Outlined (lines : List Line) (t : TestCase) : Prop where
  header : lines.head? = some (.caseHeader t.id)
  grammars : ∃ front parts, lines.tail = front ++ parts.flatten ∧ Front front ∧
    Forall₂ Grammar.Outlined parts t.grammars
  request : t.request = Request.missing.renamed (Line.under none lines .operation)

/-- The lines of a document, cut into those of its test cases.  Before them are headings at most. -/
def Document.Outlined (lines : List Line) (ts : List TestCase) : Prop :=
  ∃ front parts, lines = front ++ parts.flatten ∧
    (∀ x ∈ front, ∃ s : Section, x = .sectionHeader s.name) ∧ Forall₂ TestCase.Outlined parts ts

theorem exists_parts {α : Type} (p : α → Prop) (xs : List α) :
    ∃ (front : List α) (parts : List (List α)), xs = front ++ parts.flatten ∧
      (∀ x ∈ front, ¬p x) ∧
      ∀ part ∈ parts, ∃ x rest, part = x :: rest ∧ p x ∧ ∀ y ∈ rest, ¬p y := by
  induction xs with
  | nil => exact ⟨[], [], rfl, by simp, by simp⟩
  | cons x xs ih =>
    obtain ⟨front, parts, rfl, plain, headed⟩ := ih
    by_cases here : p x
    · exact ⟨[], (x :: front) :: parts, rfl, by simp,
        List.forall_mem_cons.mpr ⟨⟨x, front, rfl, here, plain⟩, headed⟩⟩
    · exact ⟨x :: front, parts, rfl, List.forall_mem_cons.mpr ⟨here, plain⟩, headed⟩

namespace Reader

variable {text : List Char}

theorem mem_symbols_iff {as : List Symbol} (h : symbols text = .ok as) {a : Symbol} :
    a ∈ as ↔ [a] ∈ Text.words text := by
  constructor
  · intro ha
    obtain ⟨token, listed, found⟩ := (Results.mem_iff h).mp ha
    exact (listedSymbol_eq_ok_iff.mp found).1 ▸ listed
  · intro listed
    obtain ⟨b, found⟩ := Results.exists_mapM_eq_ok_iff.mp ⟨as, h⟩ [a] listed
    obtain rfl := List.singleton_inj.mp (listedSymbol_eq_ok_iff.mp found).1
    exact (Results.mem_iff h).mpr ⟨[a], listed, found⟩

theorem alternatives_eq_ok_iff {rs : List Rule} :
    alternatives text = .ok rs ↔ Rule.ListedIn text rs := by
  rw [alternatives, Rule.ListedIn]
  cases Text.splitArrow? text with
  | none => simp
  | some sides =>
    obtain ⟨before, after⟩ := sides
    simp only [Results.map_eq_ok_iff, symbol_eq_ok_iff]
    constructor
    · intro h
      obtain ⟨lhs, single, rfl⟩ := h
      exact ⟨before, after, lhs, rfl, single, rfl⟩
    · intro h
      obtain ⟨_, _, lhs, cut, single, rfl⟩ := h
      obtain ⟨rfl, rfl⟩ := Prod.mk.inj (Option.some.inj cut)
      exact ⟨lhs, single, rfl⟩

end Reader

section Listed

variable {texts : List (List Char)} {set : SymbolSet} {a : Symbol}

theorem mem_insertMany_symbols_iff (understood : ∀ text ∈ texts, ∃ as, Reader.symbols text = .ok as) :
    a ∈ set.insertMany (texts.flatMap fun text => (Reader.symbols text).toOption.getD []) ↔
      a ∈ set ∨ ∃ text ∈ texts, [a] ∈ Text.words text := by
  rw [Std.ExtTreeSet.mem_insertMany_list, List.contains_iff_mem, List.mem_flatMap]
  refine or_congr_right (exists_congr fun text => and_congr_right fun ht => ?_)
  obtain ⟨as, listed⟩ := understood text ht
  rw [listed]
  exact Reader.mem_symbols_iff listed

theorem getLast?_filterMap_symbol (understood : ∀ text ∈ texts, ∃ a, Reader.symbol text = .ok a) :
    (texts.filterMap fun text => (Reader.symbol text).toOption).getLast?.map (fun a => [a]) =
      texts.getLast? := by
  have single : texts ∈ Set.range (List.map fun a : Symbol => [a]) := by
    rw [Set.range_list_map]
    intro text ht
    obtain ⟨a, found⟩ := understood text ht
    exact ⟨a, (Reader.symbol_eq_ok_iff.mp found).symm⟩
  obtain ⟨as, rfl⟩ := single
  have found (a : Symbol) : (Reader.symbol [a]).toOption = some a := rfl
  simp [List.filterMap_map, found]

theorem forall₂_listedIn (understood : ∀ text ∈ texts, ∃ rs, Reader.alternatives text = .ok rs) :
    Forall₂ Rule.ListedIn texts
      (texts.map fun text => (Reader.alternatives text).toOption.getD []) := by
  rw [List.forall₂_map_right_iff, List.forall₂_same]
  intro text ht
  obtain ⟨rs, split⟩ := understood text ht
  rw [split]
  exact Reader.alternatives_eq_ok_iff.mp split

theorem rightUnique_listedIn : Relator.RightUnique Rule.ListedIn := by
  intro text rs rs' h h'
  have first := Reader.alternatives_eq_ok_iff.mpr h
  have second := Reader.alternatives_eq_ok_iff.mpr h'
  exact Except.ok.inj (first.symm.trans second)

end Listed

namespace Line

variable {lines : List Line}

theorem isHeader_eq_false {x : Line} (no_case : ¬∃ id, x = .caseHeader id)
    (no_grammar : ¬∃ name, x = .grammarHeader name) : x.isHeader = false := by
  cases x with
  | caseHeader id => exact absurd ⟨id, rfl⟩ no_case
  | grammarHeader name => exact absurd ⟨name, rfl⟩ no_grammar
  | sectionHeader name => rfl
  | content text => rfl

theorem understands_of_mem_under {s? : Option Section} {s : Section}
    (contents : ∀ p ∈ placed s? lines, ∃ s, p.1 = some s ∧ s.Understands p.2) :
    ∀ text ∈ under s? lines s, s.Understands text := by
  intro text ht
  obtain ⟨⟨u?, _⟩, placed, here⟩ := List.mem_filterMap.mp ht
  obtain ⟨u, opened, understood⟩ := contents _ placed
  obtain rfl : u? = some u := opened
  obtain ⟨same, rfl⟩ : u = s ∧ _ = text := by simpa using here
  exact same ▸ understood

end Line

namespace Grammar

variable {lines : List Line}

theorem outlined_extend {name : String} (headless : ∀ x ∈ lines, x.isHeader = false)
    (headings : ∀ name, .sectionHeader name ∈ lines → ∃ s, Section.ofName? name = some s)
    (contents : ∀ p ∈ Line.placed none lines, ∃ s, p.1 = some s ∧ s.Understands p.2) :
    Outlined (.grammarHeader name :: lines)
      (extend (Line.under none lines) { name := name }) where
  header := rfl
  headless := headless
  headings n hn := by
    rcases List.mem_cons.mp hn with other | hn
    · cases other
    · exact headings n hn
  contents := contents
  alphabet a := by
    have understood := Line.understands_of_mem_under (s := .alphabet) contents
    refine (mem_insertMany_symbols_iff understood).trans (or_iff_right ?_)
    exact Std.ExtTreeSet.not_mem_empty
  vars v := by
    have understood := Line.understands_of_mem_under (s := .vars) contents
    refine (mem_insertMany_symbols_iff understood).trans (or_iff_right ?_)
    exact Std.ExtTreeSet.not_mem_empty
  start := by
    have understood := Line.understands_of_mem_under (s := .start) contents
    rw [extend, Option.or_none, getLast?_filterMap_symbol understood]
    rfl
  rules := ⟨_, forall₂_listedIn (Line.understands_of_mem_under (s := .rules) contents), rfl⟩

theorem eq_of_outlined {g g' : Grammar} (h : Outlined lines g) (h' : Outlined lines g') : g = g' := by
  have name : g.name = g'.name :=
    Line.grammarHeader.inj (Option.some.inj (h.header.symm.trans h'.header))
  have alphabet : g.alphabet = g'.alphabet :=
    Std.ExtTreeSet.ext_mem fun a => (h.alphabet a).trans (h'.alphabet a).symm
  have vars : g.vars = g'.vars :=
    Std.ExtTreeSet.ext_mem fun v => (h.vars v).trans (h'.vars v).symm
  have start : g.start = g'.start :=
    Option.map_injective (fun _ _ => List.singleton_inj.mp) (h.start.symm.trans h'.start)
  have rules : g.rules = g'.rules := by
    obtain ⟨listed, all, eq⟩ := h.rules
    obtain ⟨listed', all', eq'⟩ := h'.rules
    rw [eq, eq', rightUnique_listedIn.forall₂ all all']
  cases g
  cases g'
  simp_all

end Grammar

namespace Reader

variable {r r' : Reader} {lines : List Line}

/-- The reader has come to the end of these lines of a test case, behind those that are done. -/
structure Within (done : List TestCase) (id : String) (lines : List Line) (gs : List Grammar)
    (r : Reader) : Prop where
  finished : r.finished = done
  current : r.current = some
    { id := id
      grammars := gs
      request := Request.missing.renamed (Line.under none lines .operation) }
  opened : r.openSection = lines.foldl Line.opens none

section Cases

variable {done : List TestCase} {id : String} {gs : List Grammar} {more : List Line}

theorem Within.front (h : r.Within done id lines []) (headless : ∀ x ∈ more, x.isHeader = false)
    (run : more.foldlM read r = .ok r') : r'.Within done id (lines ++ more) [] := by
  obtain ⟨_, rfl⟩ := (foldlM_read_eq_ok_iff headless).mp run
  refine ⟨h.finished, ?_, ?_⟩
  · rw [behind, h.current, h.opened, Line.under_append, Request.renamed_append]
    rfl
  · rw [behind, h.opened, List.foldl_append]

theorem Within.grammar {name : String} (h : r.Within done id lines gs)
    (headless : ∀ x ∈ more, x.isHeader = false)
    (run : (.grammarHeader name :: more).foldlM read r = .ok r') :
    ∃ g, Grammar.Outlined (.grammarHeader name :: more) g ∧
      r'.Within done id (lines ++ .grammarHeader name :: more) (gs ++ [g]) := by
  obtain ⟨begun, header, run⟩ := Results.foldlM_cons_eq_ok_iff.mp run
  rw [read, h.current] at header
  obtain rfl := Except.ok.inj header
  obtain ⟨admitted, rfl⟩ := (foldlM_read_eq_ok_iff headless).mp run
  have contents : ∀ p ∈ Line.placed none more, ∃ s, p.1 = some s ∧ s.Understands p.2 := by
    intro p hp
    obtain ⟨s, opened, understood, _⟩ := admitted.contents p hp
    exact ⟨s, opened, understood⟩
  refine ⟨_, Grammar.outlined_extend headless admitted.sections contents, h.finished, ?_, ?_⟩
  · have texts (s? : Option Section) : Line.under s? (.grammarHeader name :: more) =
        Line.under none more := rfl
    rw [Line.under_append, Request.renamed_append, texts]
    simp [behind, TestCase.extend, List.modifyLast_concat]
  · rw [List.foldl_append]
    rfl

theorem Within.exists_foldlM_grammar {g : Grammar} (h : r.Within done id lines gs)
    (outlined : Grammar.Outlined more g) :
    ∃ r', more.foldlM read r = .ok r' ∧ r'.Within done id (lines ++ more) (gs ++ [g]) := by
  obtain ⟨body, rfl⟩ := List.head?_eq_some_iff.mp outlined.header
  let begun : Reader :=
    { finished := r.finished
      current := some
        { id := id
          grammars := gs ++ [{ name := g.name }]
          request := Request.missing.renamed (Line.under none lines .operation) } }
  have header : r.read (.grammarHeader g.name) = .ok begun := by
    rw [read, h.current]
  have admitted : begun.Admits body := by
    refine ⟨fun name hn => outlined.headings name (List.mem_cons_of_mem _ hn), fun p hp => ?_⟩
    obtain ⟨s, opened, understood⟩ := outlined.contents p hp
    exact ⟨s, opened, understood, _, rfl, fun _ => by simp⟩
  have run : (Line.grammarHeader g.name :: body).foldlM read r = .ok (begun.behind body) :=
    Results.foldlM_cons_eq_ok_iff.mpr
      ⟨begun, header, (foldlM_read_eq_ok_iff outlined.headless).mpr ⟨admitted, rfl⟩⟩
  -- The run makes a grammar of these lines, and they outline no other.
  obtain ⟨g', outlined', within⟩ := h.grammar outlined.headless run
  exact ⟨_, run, Grammar.eq_of_outlined outlined' outlined ▸ within⟩

theorem Within.cases (h : r.Within done id lines gs) : r.cases = done ++
    [{ id := id
       grammars := gs
       request := Request.missing.renamed (Line.under none lines .operation) }] := by
  rw [Reader.cases, h.finished, h.current]
  rfl

theorem within_caseHeader (r : Reader) (id : String) :
    Within r.cases id [.caseHeader id] [] { finished := r.cases, current := some { id } } :=
  ⟨rfl, rfl, rfl⟩

theorem exists_case_of_foldlM (single : ∀ x ∈ lines, ¬∃ id, x = .caseHeader id)
    (run : (.caseHeader id :: lines).foldlM read r = .ok r') :
    ∃ t, TestCase.Outlined (.caseHeader id :: lines) t ∧ r'.cases = r.cases ++ [t] := by
  obtain ⟨front, parts, rfl, plain, headed⟩ :=
    exists_parts (fun x => ∃ name, x = Line.grammarHeader name) lines
  have headless : ∀ x ∈ front, x.isHeader = false := fun x hx =>
    Line.isHeader_eq_false (single x (List.mem_append_left _ hx)) (plain x hx)
  obtain ⟨begun, header, run⟩ := Results.foldlM_cons_eq_ok_iff.mp run
  obtain rfl := Except.ok.inj header
  obtain ⟨middle, opening, run⟩ := Results.foldlM_append_eq_ok_iff.mp run
  have start : Within r.cases id (.caseHeader id :: front) [] middle :=
    (within_caseHeader r id).front headless opening
  -- Without a grammar, nothing but an operation can be added to the test case.
  have only_operations : TestCase.Front front := by
    obtain ⟨admitted, _⟩ := (foldlM_read_eq_ok_iff headless).mp opening
    refine ⟨headless, admitted.sections, fun p hp => ?_⟩
    obtain ⟨s, opened, _, t, current, room⟩ := admitted.contents p hp
    obtain rfl := Option.some.inj current
    by_contra other
    exact room (fun same => other (same ▸ opened)) rfl
  have step : ∀ part ∈ parts, ∀ before gs b b',
      Within r.cases id (.caseHeader id :: front ++ before.flatten) gs b →
      part.foldlM read b = .ok b' → ∃ g, Grammar.Outlined part g ∧
        Within r.cases id (.caseHeader id :: front ++ (before ++ [part]).flatten) (gs ++ [g]) b' := by
    intro part hpart before gs b b' within run
    obtain ⟨_, body, rfl, ⟨name, rfl⟩, plain⟩ := headed part hpart
    have headless : ∀ x ∈ body, x.isHeader = false := by
      intro x hx
      have among : x ∈ front ++ parts.flatten := List.mem_append_right _
        (List.mem_flatten.mpr ⟨_, hpart, List.mem_cons_of_mem _ hx⟩)
      exact Line.isHeader_eq_false (single x among) (plain x hx)
    obtain ⟨g, outlined, there⟩ := within.grammar headless run
    exact ⟨g, outlined, by simpa using there⟩
  obtain ⟨gs, grammars, last⟩ := Results.exists_forall₂_of_foldlM_flatten
    step [] [] (by simpa using start) run
  exact ⟨_, ⟨rfl, ⟨front, parts, rfl, only_operations, grammars⟩, rfl⟩, last.cases⟩

theorem exists_foldlM_case {t : TestCase} (outlined : TestCase.Outlined lines t) (r : Reader) :
    ∃ r', lines.foldlM read r = .ok r' ∧ r'.cases = r.cases ++ [t] := by
  obtain ⟨header, ⟨front, parts, cut, only_operations, grammars⟩, request⟩ := outlined
  obtain ⟨rest, rfl⟩ := List.head?_eq_some_iff.mp header
  obtain rfl : rest = front ++ parts.flatten := cut
  let begun : Reader := { finished := r.cases, current := some { id := t.id } }
  have admitted : begun.Admits front :=
    ⟨only_operations.headings, fun p hp => ⟨.operation, only_operations.contents p hp, trivial,
      _, rfl, fun other => absurd rfl other⟩⟩
  have opening : front.foldlM read begun = .ok (begun.behind front) :=
    (foldlM_read_eq_ok_iff only_operations.headless).mpr ⟨admitted, rfl⟩
  have start := (within_caseHeader r t.id).front only_operations.headless opening
  have step : ∀ part g, Grammar.Outlined part g → ∀ before gs b,
      Within r.cases t.id (.caseHeader t.id :: front ++ before.flatten) gs b →
      ∃ b', part.foldlM read b = .ok b' ∧
        Within r.cases t.id (.caseHeader t.id :: front ++ (before ++ [part]).flatten)
          (gs ++ [g]) b' := by
    intro part g outlined before gs b within
    obtain ⟨b', run, there⟩ := within.exists_foldlM_grammar outlined
    exact ⟨b', run, by simpa using there⟩
  obtain ⟨r', run, last⟩ := Results.exists_foldlM_flatten_of_forall₂ step grammars [] []
    (by simpa using start)
  refine ⟨r', ?_, ?_⟩
  · exact Results.foldlM_cons_eq_ok_iff.mpr
      ⟨begun, rfl, Results.foldlM_append_eq_ok_iff.mpr ⟨_, opening, run⟩⟩
  · have same : t = { t with request := Request.missing.renamed (Line.under none
        (.caseHeader t.id :: (front ++ parts.flatten)) .operation) } := by
      rw [← request]
    rw [same]
    exact last.cases

end Cases

theorem headings_of_foldlM (closed : r.current = none)
    (outside : ∀ x ∈ lines, ¬∃ id, x = .caseHeader id) (run : lines.foldlM read r = .ok r') :
    (∀ x ∈ lines, ∃ s : Section, x = .sectionHeader s.name) ∧ r'.cases = r.cases := by
  induction lines generalizing r with
  | nil =>
    obtain rfl := Except.ok.inj run
    exact ⟨nofun, rfl⟩
  | cons x lines ih =>
    obtain ⟨no_case, rest⟩ := List.forall_mem_cons.mp outside
    obtain ⟨next, here, run⟩ := Results.foldlM_cons_eq_ok_iff.mp run
    cases x with
    | caseHeader id => exact absurd ⟨id, rfl⟩ no_case
    | grammarHeader name =>
      rw [read, closed] at here
      cases here
    | content text =>
      obtain ⟨s, _, _, ⟨t, opened, _⟩, _⟩ := readContent_eq_ok_iff.mp here
      rw [closed] at opened
      cases opened
    | sectionHeader name =>
      rw [read] at here
      split at here
      · next s known =>
        obtain rfl := Except.ok.inj here
        obtain ⟨headings, same⟩ := ih (r := { r with openSection := some s }) closed rest run
        have named : Line.sectionHeader name = .sectionHeader s.name := by
          rw [Section.name_of_ofName? known]
        exact ⟨List.forall_mem_cons.mpr ⟨⟨s, named⟩, headings⟩, same⟩
      · cases here

theorem exists_foldlM_headings (headings : ∀ x ∈ lines, ∃ s : Section, x = .sectionHeader s.name)
    (r : Reader) : ∃ r', lines.foldlM read r = .ok r' ∧ r'.cases = r.cases := by
  induction lines generalizing r with
  | nil => exact ⟨r, rfl, rfl⟩
  | cons x lines ih =>
    obtain ⟨⟨s, rfl⟩, rest⟩ := List.forall_mem_cons.mp headings
    obtain ⟨r', run, same⟩ := ih rest { r with openSection := some s }
    refine ⟨r', ?_, same⟩
    rw [List.foldlM_cons, read, Section.ofName?_name]
    exact run

end Reader

namespace Document

theorem outlined_of_foldlM {lines : List Line} {r : Reader}
    (run : lines.foldlM Reader.read {} = .ok r) : Outlined lines r.cases := by
  obtain ⟨front, parts, rfl, plain, headed⟩ :=
    exists_parts (fun x => ∃ id, x = Line.caseHeader id) lines
  obtain ⟨middle, opening, run⟩ := Results.foldlM_append_eq_ok_iff.mp run
  obtain ⟨headings, none_yet⟩ := Reader.headings_of_foldlM rfl plain opening
  have step : ∀ part ∈ parts, ∀ before : List (List Line), ∀ done : List TestCase, ∀ b b' : Reader,
      b.cases = done → part.foldlM Reader.read b = .ok b' →
      ∃ t, TestCase.Outlined part t ∧ b'.cases = done ++ [t] := by
    intro part hpart before done b b' here run
    obtain ⟨_, body, rfl, ⟨id, rfl⟩, single⟩ := headed part hpart
    exact here ▸ Reader.exists_case_of_foldlM single run
  obtain ⟨ts, cases, all⟩ := Results.exists_forall₂_of_foldlM_flatten
    step [] [] none_yet run
  exact ⟨front, parts, rfl, headings, all ▸ cases⟩

theorem exists_foldlM_of_outlined {lines : List Line} {ts : List TestCase}
    (outlined : Outlined lines ts) : ∃ r, lines.foldlM Reader.read {} = .ok r ∧ r.cases = ts := by
  obtain ⟨front, parts, rfl, headings, cases⟩ := outlined
  obtain ⟨middle, opening, none_yet⟩ := Reader.exists_foldlM_headings headings {}
  have step : ∀ part t, TestCase.Outlined part t → ∀ before : List (List Line),
      ∀ done : List TestCase, ∀ b : Reader, b.cases = done →
      ∃ b', part.foldlM Reader.read b = .ok b' ∧ b'.cases = done ++ [t] := by
    intro part t outlined before done b here
    exact here ▸ Reader.exists_foldlM_case outlined b
  obtain ⟨r, run, all⟩ := Results.exists_foldlM_flatten_of_forall₂ step cases [] [] none_yet
  exact ⟨r, Results.foldlM_append_eq_ok_iff.mpr ⟨middle, opening, run⟩, all⟩

/-- A document is read as these test cases exactly if its lines outline them. -/
theorem parse_eq_ok_iff_outlined {document : String} {ts : List TestCase} :
    parse document = .ok ts ↔ Outlined (lines document) ts := by
  rw [parse_eq_ok_iff_lines]
  constructor
  · intro h
    obtain ⟨r, run, rfl⟩ := h
    exact outlined_of_foldlM run
  · exact exists_foldlM_of_outlined

/-- The test cases of a document that can be read are those that its headers cut out of it, each
with what stands under them and nothing else, and all their names, symbols and texts have the form
that they should have. -/
theorem outlined_of_parse {document : String} {ts : List TestCase} (h : parse document = .ok ts) :
    Outlined (lines document) ts ∧ ∀ t ∈ ts, t.Parsed :=
  ⟨parse_eq_ok_iff_outlined.mp h, parsed_of_parse h⟩

/-- Headings out of place, a section in two pieces, a start symbol and an operation that are
replaced. -/
def scatteredText : String :=
  "#Rules\n1:\n#Operation\nUnion\nG 1:\n#Start\nT\nS\n#Rules\nS -> a | :\n" ++
    "G:\n#Variables\nS\n#Operation\nJoin:\n#Variables\nS T\n2::"

def scatteredCases : List TestCase :=
  [{ id := "1"
     grammars := [
      { name := "G 1", start := some 'S', rules := [⟨'S', "a"⟩, ⟨'S', ":"⟩] },
      { name := "G", vars := .ofList ['S', 'T'] }]
     request := .error (.unknownOperation "Join:") },
   { id := "2:" }]

theorem outlined_of_parse_scatteredText : parse scatteredText = .ok scatteredCases ∧
    Outlined (lines scatteredText) scatteredCases ∧ ∀ t ∈ scatteredCases, t.Parsed := by
  have read : parse scatteredText = .ok scatteredCases := by decide +kernel
  exact ⟨read, outlined_of_parse read⟩

end Document

end RightLinear
