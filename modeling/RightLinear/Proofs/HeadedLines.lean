import Mathlib.Data.List.ModifyLast
import RightLinear.Proofs.DocumentReading
import RightLinear.Proofs.Results

namespace RightLinear

namespace Line

/-- What a line says, unless it is passed over. -/
def meaning? (cs : List Char) : Option Line :=
  if isSignificant (Text.trim cs) then some (ofText (Text.trim cs)) else none

/-- A header begins a test case or a grammar; other lines belong to what was begun last. -/
def isHeader : Line → Bool
  | caseHeader _ | grammarHeader _ => true
  | sectionHeader _ | content _ => false

def opens (s? : Option Section) : Line → Option Section
  | content _ => s?
  | sectionHeader name => Section.ofName? name
  | caseHeader _ | grammarHeader _ => none

/-- The lines of content, each with the section that it stands under. -/
def placed (s? : Option Section) : List Line → List (Option Section × List Char)
  | [] => []
  | content text :: lines => (s?, text) :: placed s? lines
  | line :: lines => placed (line.opens s?) lines

def under (s? : Option Section) (lines : List Line) (s : Section) : List (List Char) :=
  (placed s? lines).filterMap fun (u?, text) => if u? = some s then some text else none

theorem placed_append (s? : Option Section) (xs ys : List Line) :
    placed s? (xs ++ ys) = placed s? xs ++ placed (xs.foldl opens s?) ys := by
  induction xs generalizing s? with
  | nil => rfl
  | cons x xs ih =>
    cases x with
    | content text => exact congrArg ((s?, text) :: ·) (ih s?)
    | caseHeader id => exact ih none
    | sectionHeader name => exact ih (Section.ofName? name)
    | grammarHeader name => exact ih none

theorem under_append (s? : Option Section) (xs ys : List Line) (s : Section) :
    under s? (xs ++ ys) s = under s? xs s ++ under (xs.foldl opens s?) ys s := by
  rw [under, placed_append, List.filterMap_append, under, under]

end Line

namespace Section

theorem name_of_ofName? {name : String} {s : Section} (h : ofName? name = some s) :
    s.name = name := by
  simpa using List.find?_some h

/-- A text that has the form of what is listed in the section. -/
def Understands : Section → List Char → Prop
  | alphabet, text | vars, text => ∃ as, Reader.symbols text = .ok as
  | start, text => ∃ a, Reader.symbol text = .ok a
  | rules, text => ∃ rs, Reader.alternatives text = .ok rs
  | operation, _ => True

/-- What is listed in the section can be added to the open test case, if there is one. -/
def HasRoom (s : Section) (t? : Option TestCase) : Prop :=
  ∃ t, t? = some t ∧ (s ≠ operation → t.grammars ≠ [])

end Section

/-- The grammar with what the texts of each section add to it. -/
def Grammar.extend (texts : Section → List (List Char)) (g : Grammar) : Grammar where
  name := g.name
  alphabet := g.alphabet.insertMany
    ((texts .alphabet).flatMap fun text => (Reader.symbols text).toOption.getD [])
  vars := g.vars.insertMany
    ((texts .vars).flatMap fun text => (Reader.symbols text).toOption.getD [])
  start := ((texts .start).filterMap fun text => (Reader.symbol text).toOption).getLast?.or g.start
  rules := g.rules ++ (texts .rules).flatMap fun text => (Reader.alternatives text).toOption.getD []

/-- The request that the last text names, if there is one. -/
def Request.renamed (q : Request) (texts : List (List Char)) : Request :=
  (texts.getLast?.map fun text => ofName (String.ofList text)).getD q

def TestCase.extend (texts : Section → List (List Char)) (t : TestCase) : TestCase where
  id := t.id
  grammars := t.grammars.modifyLast (Grammar.extend texts)
  request := t.request.renamed (texts .operation)

section Extensions

variable {T U : Section → List (List Char)}

@[simp] theorem Grammar.extend_nil (g : Grammar) : g.extend (fun _ => []) = g := by
  simp [extend]

theorem Grammar.extend_append (g : Grammar) :
    g.extend (fun s => T s ++ U s) = (g.extend T).extend U := by
  simp [extend, Std.ExtTreeSet.insertMany_append, List.filterMap_append, List.getLast?_append,
    Option.or_assoc]

@[simp] theorem Request.renamed_nil (q : Request) : q.renamed [] = q := rfl

theorem Request.renamed_append (q : Request) (xs ys : List (List Char)) :
    q.renamed (xs ++ ys) = (q.renamed xs).renamed ys := by
  rw [renamed, renamed, renamed, List.getLast?_append]
  cases ys.getLast? <;> simp

@[simp] theorem TestCase.extend_nil (t : TestCase) : t.extend (fun _ => []) = t := by
  obtain ⟨id, grammars, request⟩ := t
  rcases grammars.eq_nil_or_concat' with rfl | ⟨gs, g, rfl⟩
  · rfl
  · simp [extend, List.modifyLast_concat]

theorem TestCase.extend_append (t : TestCase) :
    t.extend (fun s => T s ++ U s) = (t.extend T).extend U := by
  obtain ⟨id, grammars, request⟩ := t
  rcases grammars.eq_nil_or_concat' with rfl | ⟨gs, g, rfl⟩
  · rw [extend, Request.renamed_append]
    rfl
  · simp [extend, Request.renamed_append, List.modifyLast_concat, Grammar.extend_append]

def Section.only (s : Section) (text : List Char) (u : Section) : List (List Char) :=
  if u = s then [text] else []

end Extensions

namespace Reader

variable {r r' : Reader} {text : List Char} {s : Section}

theorem modifyGrammar_eq_ok_iff {f : Grammar → Grammar} : r.modifyGrammar f = .ok r' ↔
    ∃ t, r.current = some t ∧ t.grammars ≠ [] ∧
      { r with current := some { t with grammars := t.grammars.modifyLast f } } = r' := by
  rw [modifyGrammar]
  cases r.current with
  | none => simp
  | some t =>
    rcases t.grammars.eq_nil_or_concat' with none | ⟨gs, g, last⟩
    · simp [none]
    · simp [last, List.modifyLast_concat]

theorem bind_modifyGrammar_eq_ok_iff {α : Type} {x : Except LineFault α} {f : α → Grammar → Grammar}
    (adds : ∀ a, x = .ok a → f a = Grammar.extend (s.only text)) (other : s ≠ .operation) :
    (x.bind fun a => r.modifyGrammar (f a)) = .ok r' ↔
      (∃ a, x = .ok a) ∧ s.HasRoom r.current ∧
        { r with current := r.current.map (TestCase.extend (s.only text)) } = r' := by
  have extended (t : TestCase) : t.extend (s.only text) =
      { t with grammars := t.grammars.modifyLast (Grammar.extend (s.only text)) } := by
    simp [TestCase.extend, Section.only, other.symm]
  rw [Results.bind_eq_ok_iff, Section.HasRoom]
  simp only [modifyGrammar_eq_ok_iff]
  constructor
  · intro h
    obtain ⟨a, found, t, current, nonempty, rfl⟩ := h
    rw [current, adds a found, Option.map_some, extended]
    exact ⟨⟨a, found⟩, ⟨t, rfl, fun _ => nonempty⟩, rfl⟩
  · intro h
    obtain ⟨⟨a, found⟩, ⟨t, current, nonempty⟩, rfl⟩ := h
    refine ⟨a, found, t, current, nonempty other, ?_⟩
    rw [current, adds a found, Option.map_some, extended]

theorem readContent_eq_ok_iff : r.readContent text = .ok r' ↔
    ∃ s, r.openSection = some s ∧ s.Understands text ∧ s.HasRoom r.current ∧
      { r with current := r.current.map (TestCase.extend (s.only text)) } = r' := by
  obtain ⟨finished, current, opened⟩ := r
  rw [readContent]
  cases opened with
  | none => simp
  | some s =>
    simp only [Option.some.injEq, exists_eq_left']
    cases s with
    | alphabet =>
      refine bind_modifyGrammar_eq_ok_iff (fun as listed => ?_) (by decide)
      funext g
      simp [Grammar.extend, Section.only, listed, Except.toOption]
    | vars =>
      refine bind_modifyGrammar_eq_ok_iff (fun vs listed => ?_) (by decide)
      funext g
      simp [Grammar.extend, Section.only, listed, Except.toOption]
    | start =>
      refine bind_modifyGrammar_eq_ok_iff (fun v single => ?_) (by decide)
      funext g
      simp [Grammar.extend, Section.only, single, Except.toOption]
    | rules =>
      refine bind_modifyGrammar_eq_ok_iff (fun rs split => ?_) (by decide)
      funext g
      simp [Grammar.extend, Section.only, split, Except.toOption]
    | operation =>
      -- No grammar is needed, and none is changed.
      have extended (t : TestCase) : t.extend (Section.operation.only text) =
          { t with request := .ofName (String.ofList text) } := by
        obtain ⟨id, grammars, request⟩ := t
        rcases grammars.eq_nil_or_concat' with rfl | ⟨gs, g, rfl⟩
        · rfl
        · simp [TestCase.extend, Grammar.extend, Section.only, Request.renamed,
            List.modifyLast_concat]
      cases current with
      | none => simp [setRequest, Section.HasRoom]
      | some t => simp [setRequest, Section.HasRoom, Section.Understands, extended]

theorem foldlM_readLine (r : Reader) (lines : List (List Char)) :
    lines.foldlM readLine r = (lines.filterMap Line.meaning?).foldlM read r := by
  rw [List.foldlM_filterMap]
  congr 1
  funext r line
  rw [readLine, Line.meaning?]
  by_cases significant : Line.isSignificant (Text.trim line) = true
  · rw [if_pos significant, if_pos significant]
  · rw [if_neg significant, if_neg significant]
    rfl

/-- The lines name sections that there are, and each line of content is understood where it stands
and has something that it can be added to. -/
structure Admits (r : Reader) (lines : List Line) : Prop where
  sections : ∀ name, .sectionHeader name ∈ lines → ∃ s, Section.ofName? name = some s
  contents : ∀ p ∈ Line.placed r.openSection lines,
    ∃ s, p.1 = some s ∧ s.Understands p.2 ∧ s.HasRoom r.current

/-- The reader behind lines between two headers. -/
def behind (r : Reader) (lines : List Line) : Reader where
  finished := r.finished
  current := r.current.map (TestCase.extend (Line.under r.openSection lines))
  openSection := lines.foldl Line.opens r.openSection

theorem hasRoom_map_extend {T : Section → List (List Char)} {t? : Option TestCase} :
    s.HasRoom (t?.map (TestCase.extend T)) ↔ s.HasRoom t? := by
  have nonempty (t : TestCase) : (t.extend T).grammars = [] ↔ t.grammars = [] := by
    rcases t.grammars.eq_nil_or_concat' with none | ⟨gs, g, last⟩
    · rw [TestCase.extend, none]
      rfl
    · simp [TestCase.extend, last, List.modifyLast_concat]
  cases t? with
  | none => simp [Section.HasRoom]
  | some t => simp [Section.HasRoom, nonempty]

theorem admits_sectionHeader_iff {name : String} {lines : List Line} :
    r.Admits (.sectionHeader name :: lines) ↔
      (∃ s, Section.ofName? name = some s) ∧
        Admits { r with openSection := Section.ofName? name } lines := by
  constructor
  · intro h
    obtain ⟨known, later⟩ : _ ∧ _ :=
      ⟨h.sections name List.mem_cons_self, fun n hn => h.sections n (List.mem_cons_of_mem _ hn)⟩
    exact ⟨known, later, h.contents⟩
  · intro h
    obtain ⟨known, later⟩ := h
    refine ⟨fun n hn => ?_, later.contents⟩
    rcases List.mem_cons.mp hn with same | hn
    · exact Line.sectionHeader.inj same ▸ known
    · exact later.sections n hn

theorem admits_content_iff {lines : List Line} :
    r.Admits (.content text :: lines) ↔
      (∃ s, r.openSection = some s ∧ s.Understands text ∧ s.HasRoom r.current) ∧
        r.Admits lines := by
  constructor
  · intro h
    obtain ⟨here, later⟩ := List.forall_mem_cons.mp h.contents
    exact ⟨here, fun n hn => h.sections n (List.mem_cons_of_mem _ hn), later⟩
  · intro h
    obtain ⟨here, later⟩ := h
    refine ⟨fun n hn => ?_, List.forall_mem_cons.mpr ⟨here, later.contents⟩⟩
    rcases List.mem_cons.mp hn with other | hn
    · cases other
    · exact later.sections n hn

theorem admits_map_extend_iff {T : Section → List (List Char)} {lines : List Line} :
    Admits { r with current := r.current.map (TestCase.extend T) } lines ↔ r.Admits lines := by
  constructor
  · intro h
    refine ⟨h.sections, fun p hp => ?_⟩
    obtain ⟨s, placed, understood, room⟩ := h.contents p hp
    exact ⟨s, placed, understood, hasRoom_map_extend.mp room⟩
  · intro h
    refine ⟨h.sections, fun p hp => ?_⟩
    obtain ⟨s, placed, understood, room⟩ := h.contents p hp
    exact ⟨s, placed, understood, hasRoom_map_extend.mpr room⟩

theorem behind_content {lines : List Line} (opened : r.openSection = some s) :
    r.behind (.content text :: lines) =
      behind { r with current := r.current.map (TestCase.extend (s.only text)) } lines := by
  have texts : Line.under r.openSection (.content text :: lines) =
      fun u => s.only text u ++ Line.under r.openSection lines u := by
    funext u
    by_cases same : u = s
    · simp [Line.under, Line.placed, Section.only, opened, same]
    · simp [Line.under, Line.placed, Section.only, opened, same, Ne.symm same]
  have extended : TestCase.extend (Line.under r.openSection (.content text :: lines)) =
      TestCase.extend (Line.under r.openSection lines) ∘ TestCase.extend (s.only text) := by
    funext t
    rw [texts, TestCase.extend_append]
    rfl
  rw [behind, behind, extended, Option.map_map]
  rfl

/-- Lines between two headers are read if each of them is admitted, and they are all that is added. -/
theorem foldlM_read_eq_ok_iff {lines : List Line} (headless : ∀ x ∈ lines, x.isHeader = false) :
    lines.foldlM read r = .ok r' ↔ r.Admits lines ∧ r.behind lines = r' := by
  induction lines generalizing r with
  | nil =>
    have admitted : r.Admits [] := ⟨nofun, nofun⟩
    have same : r.behind [] = r := by
      obtain ⟨finished, current, opened⟩ := r
      have texts : Line.under opened [] = fun _ => [] := rfl
      cases current <;> simp [behind, texts]
    simp [admitted, same, pure, Except.pure]
  | cons x lines ih =>
    obtain ⟨first, rest⟩ := List.forall_mem_cons.mp headless
    rw [Results.foldlM_cons_eq_ok_iff]
    cases x with
    | caseHeader id => cases first
    | grammarHeader name => cases first
    | sectionHeader name =>
      rw [admits_sectionHeader_iff, read]
      have onward : r.behind (.sectionHeader name :: lines) =
          behind { r with openSection := Section.ofName? name } lines := rfl
      rw [onward]
      cases Section.ofName? name with
      | none => simp
      | some s => simp [ih rest]
    | content text =>
      simp only [read, readContent_eq_ok_iff, admits_content_iff]
      constructor
      · intro h
        obtain ⟨next, ⟨s, opened, understood, room, rfl⟩, later⟩ := h
        obtain ⟨admitted, behind⟩ := (ih rest).mp later
        exact ⟨⟨⟨s, opened, understood, room⟩, admits_map_extend_iff.mp admitted⟩,
          (behind_content opened).trans behind⟩
      · intro h
        obtain ⟨⟨⟨s, opened, understood, room⟩, admitted⟩, behind⟩ := h
        exact ⟨_, ⟨s, opened, understood, room, rfl⟩, (ih rest).mpr
          ⟨admits_map_extend_iff.mpr admitted, (behind_content opened).symm.trans behind⟩⟩

end Reader

namespace Document

def lines (document : String) : List Line :=
  (document.toList.splitOn '\n').filterMap Line.meaning?

theorem parse_eq_ok_iff_lines {document : String} {ts : List TestCase} :
    parse document = .ok ts ↔
      ∃ r, (lines document).foldlM Reader.read {} = .ok r ∧ r.cases = ts := by
  rw [parse_eq_ok_iff, Reader.foldlM_readLine]
  rfl

end Document

end RightLinear
