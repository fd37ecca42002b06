import Mathlib.Data.Set.List
import RightLinear.Proofs.HeadedLines

namespace RightLinear

namespace Line

def isContent : Line → Bool
  | content _ => true
  | _ => false

theorem exists_of_isContent {x : Line} (h : x.isContent = true) : x ∈ Set.range content := by
  cases x with
  | content text => exact ⟨text, rfl⟩
  | caseHeader id => cases h
  | sectionHeader name => cases h
  | grammarHeader name => cases h

def group (name : String) (texts : List (List Char)) : List Line :=
  sectionHeader name :: texts.map content

theorem placed_map_content (s? : Option Section) (texts : List (List Char)) :
    placed s? (texts.map content) = texts.map fun text => (s?, text) := by
  induction texts with
  | nil => rfl
  | cons text texts ih => exact congrArg ((s?, text) :: ·) ih

theorem placed_group (s? : Option Section) (name : String) (texts : List (List Char)) :
    placed s? (group name texts) = texts.map fun text => (Section.ofName? name, text) :=
  placed_map_content (Section.ofName? name) texts

theorem under_group (s? : Option Section) (name : String) (texts : List (List Char)) (s : Section) :
    under s? (group name texts) s = if Section.ofName? name = some s then texts else [] := by
  rw [under, placed_group, List.filterMap_map]
  by_cases known : Section.ofName? name = some s
  · simp [known]
  · simp [known]

variable {m n : String} {texts texts' : List (List Char)}

theorem under_groups_comm (other : m ≠ n) (s? : Option Section) :
    under s? (group m texts ++ group n texts') = under s? (group n texts' ++ group m texts) := by
  funext s
  simp only [under_append, under_group]
  by_cases first : Section.ofName? m = some s
  · have apart : Section.ofName? n ≠ some s := fun second =>
      other ((Section.name_of_ofName? first).symm.trans (Section.name_of_ofName? second))
    rw [if_neg apart, List.nil_append, List.append_nil]
  · rw [if_neg first, List.nil_append, List.append_nil]

theorem headless_groups : ∀ x ∈ group m texts ++ group n texts', x.isHeader = false := by
  intro x hx
  simp only [group, List.mem_append, List.mem_cons, List.mem_map] at hx
  rcases hx with (rfl | ⟨text, _, rfl⟩) | rfl | ⟨text, _, rfl⟩ <;> rfl

end Line

namespace Reader

open Line (group)

variable {r r' : Reader} {m n : String} {texts texts' : List (List Char)}

theorem Admits.groups_comm (h : r.Admits (group m texts ++ group n texts')) :
    r.Admits (group n texts' ++ group m texts) := by
  constructor
  · intro name hn
    exact h.sections name (List.perm_append_comm.mem_iff.mp hn)
  · intro p hp
    apply h.contents p
    rw [Line.placed_append, Line.placed_group, Line.placed_group] at hp ⊢
    exact List.perm_append_comm.mem_iff.mp hp

/-- The groups add the same in either order.  Which section is open behind them is another matter. -/
theorem foldlM_groups_comm (other : m ≠ n)
    (read : (group m texts ++ group n texts').foldlM Reader.read r = .ok r') :
    ∃ s?, (group n texts' ++ group m texts).foldlM Reader.read r =
      .ok { r' with openSection := s? } := by
  obtain ⟨admitted, rfl⟩ := (foldlM_read_eq_ok_iff Line.headless_groups).mp read
  refine ⟨(r.behind (group n texts' ++ group m texts)).openSection,
    (foldlM_read_eq_ok_iff Line.headless_groups).mpr ⟨admitted.groups_comm, ?_⟩⟩
  rw [behind, behind, Line.under_groups_comm other]

theorem read_openSection {x : Line} (h : x.isContent = false) (s? : Option Section) :
    Reader.read { r with openSection := s? } x = r.read x := by
  cases x with
  | caseHeader id => rfl
  | sectionHeader name => rfl
  | grammarHeader name => rfl
  | content text => cases h

theorem cases_foldlM_openSection {lines : List Line}
    (closed : ∀ x ∈ lines.head?, x.isContent = false) (s? : Option Section)
    (read : lines.foldlM Reader.read r = .ok r') :
    ∃ r'', lines.foldlM Reader.read { r with openSection := s? } = .ok r'' ∧ r''.cases = r'.cases := by
  cases lines with
  | nil =>
    obtain rfl := Except.ok.inj read
    exact ⟨_, rfl, rfl⟩
  | cons x lines =>
    refine ⟨r', ?_, rfl⟩
    rwa [List.foldlM_cons, read_openSection (closed x rfl), ← List.foldlM_cons]

end Reader

namespace Document

/-- The heading of a section, and lines up to the next heading or header. -/
structure IsGroup (name : String) (lines : List (List Char)) : Prop where
  heading : ∃ first ∈ lines.head?, Line.meaning? first = some (.sectionHeader name)
  contents : ∀ line ∈ lines.tail, ∀ x ∈ Line.meaning? line, x.isContent = true

/-- The lines go on with a heading or a header, if anything is to be read there. -/
def BeginsAnew (lines : List (List Char)) : Prop :=
  ∀ x ∈ (lines.filterMap Line.meaning?).head?, x.isContent = false

/-- The second document is the first one with two groups of lines exchanged, which are neighbours
and whose headings name different sections. -/
def Exchanged (document exchanged : String) : Prop :=
  ∃ before first second after : List (List Char), ∃ m n : String,
    IsGroup m first ∧ IsGroup n second ∧ m ≠ n ∧ BeginsAnew after ∧
      document.toList.splitOn '\n' = before ++ first ++ second ++ after ∧
      exchanged.toList.splitOn '\n' = before ++ second ++ first ++ after

theorem IsGroup.filterMap_meaning? {name : String} {lines : List (List Char)}
    (h : IsGroup name lines) : ∃ texts, lines.filterMap Line.meaning? = Line.group name texts := by
  obtain ⟨⟨first, here, heading⟩, contents⟩ := h
  obtain ⟨rest, rfl⟩ := List.head?_eq_some_iff.mp here
  have body : rest.filterMap Line.meaning? ∈ Set.range (List.map Line.content) := by
    rw [Set.range_list_map]
    intro x hx
    obtain ⟨line, hline, meaning⟩ := List.mem_filterMap.mp hx
    exact Line.exists_of_isContent (contents line hline x meaning)
  obtain ⟨texts, body⟩ := body
  exact ⟨texts, by rw [List.filterMap_cons_some heading, ← body, Line.group]⟩

theorem parse_eq_ok_of_exchanged {document exchanged : String} (swap : Exchanged document exchanged)
    {ts : List TestCase} (read : parse document = .ok ts) : parse exchanged = .ok ts := by
  obtain ⟨before, first, second, after, m, n, hm, hn, other, anew, lines, lines'⟩ := swap
  obtain ⟨texts, first_eq⟩ := hm.filterMap_meaning?
  obtain ⟨texts', second_eq⟩ := hn.filterMap_meaning?
  have written : Document.lines document = before.filterMap Line.meaning? ++
      (Line.group m texts ++ Line.group n texts') ++ after.filterMap Line.meaning? := by
    simp [Document.lines, lines, first_eq, second_eq]
  have rewritten : Document.lines exchanged = before.filterMap Line.meaning? ++
      (Line.group n texts' ++ Line.group m texts) ++ after.filterMap Line.meaning? := by
    simp [Document.lines, lines', first_eq, second_eq]
  obtain ⟨r, run, rfl⟩ := parse_eq_ok_iff_lines.mp read
  rw [written] at run
  obtain ⟨middle, run, closing⟩ := Results.foldlM_append_eq_ok_iff.mp run
  obtain ⟨start, opening, groups⟩ := Results.foldlM_append_eq_ok_iff.mp run
  obtain ⟨s?, groups'⟩ := Reader.foldlM_groups_comm other groups
  obtain ⟨r', closing', same⟩ := Reader.cases_foldlM_openSection anew s? closing
  refine parse_eq_ok_iff_lines.mpr ⟨r', ?_, same⟩
  rw [rewritten]
  exact Results.foldlM_append_eq_ok_iff.mpr
    ⟨_, Results.foldlM_append_eq_ok_iff.mpr ⟨start, opening, groups'⟩, closing'⟩

theorem Exchanged.symm {document exchanged : String} (swap : Exchanged document exchanged) :
    Exchanged exchanged document := by
  obtain ⟨before, first, second, after, m, n, hm, hn, other, anew, lines, lines'⟩ := swap
  exact ⟨before, second, first, after, n, m, hn, hm, other.symm, anew, lines', lines⟩

/-- Two documents that differ in the order of two neighbouring sections are both read, and as the
same test cases, or both of them are faulty. -/
theorem parse_eq_ok_iff_of_exchanged {document exchanged : String}
    (swap : Exchanged document exchanged) (ts : List TestCase) :
    parse document = .ok ts ↔ parse exchanged = .ok ts :=
  ⟨parse_eq_ok_of_exchanged swap, parse_eq_ok_of_exchanged swap.symm⟩

theorem parse_eq_ok_iff_of_exchanged_rules_start :
    let document :=
      "1:\nG1:\n#Variables\nS\n#Rules\nS -> a\n\nS ->\n#Start\n=\nS\n#Operation\nUnion"
    let exchanged :=
      "1:\nG1:\n#Variables\nS\n#Start\n=\nS\n#Rules\nS -> a\n\nS ->\n#Operation\nUnion"
    let testCase : TestCase := ⟨"1", [⟨"G1", ∅, .ofList ['S'], some 'S', [⟨'S', "a"⟩, ⟨'S', ""⟩]⟩],
      .ok .union⟩
    Exchanged document exchanged ∧
      (∀ ts, parse document = .ok ts ↔ parse exchanged = .ok ts) ∧
      parse document = .ok [testCase] ∧ parse exchanged = .ok [testCase] := by
  intro document exchanged testCase
  have swap : Exchanged document exchanged := by
    refine ⟨["1:".toList, "G1:".toList, "#Variables".toList, ['S']],
      ["#Rules".toList, "S -> a".toList, [], "S ->".toList], ["#Start".toList, ['='], ['S']],
      ["#Operation".toList, "Union".toList], "Rules", "Start", ?_, ?_, by decide, ?_, ?_, ?_⟩
    · exact ⟨⟨_, rfl, by decide +kernel⟩, by decide +kernel⟩
    · exact ⟨⟨_, rfl, by decide +kernel⟩, by decide +kernel⟩
    · unfold BeginsAnew
      decide +kernel
    · decide +kernel
    · decide +kernel
  have agree := parse_eq_ok_iff_of_exchanged swap
  have read : parse document = .ok [testCase] := by decide +kernel
  exact ⟨swap, agree, read, (agree _).mp read⟩

end Document

end RightLinear
