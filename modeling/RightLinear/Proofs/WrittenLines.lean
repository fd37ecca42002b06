import Mathlib.Tactic.MkIffOfInductiveProp
import RightLinear.Document.Printer
import RightLinear.Proofs.DocumentReading

namespace RightLinear

/-- A text that can be the whole of a line: it does not break the line, and no blank is at its
ends. -/
@[mk_iff]
structure Text.FitsLine (s : String) : Prop where
  unbroken : '\n' ∉ s.toList
  trimmed : Text.trim s.toList = s.toList

@[mk_iff]
structure Symbol.Unmarked (a : Symbol) : Prop where
  not_heading : a ≠ '#'
  not_skipped : a ≠ '='

/-- A symbol that can begin a line which is not a heading and is not passed over. -/
@[mk_iff]
structure Symbol.OpensLine (a : Symbol) : Prop extends a.Unmarked where
  plain : Text.isBlank a = false

/-- What holds of a rule that was read. -/
@[mk_iff]
structure Rule.Parsed (r : Rule) : Prop where
  lhs : Text.isBlank r.lhs = false
  rhs : Text.FitsLine r.rhs
  single : '|' ∉ r.rhs.toList

@[mk_iff]
structure Rule.Writable (r : Rule) : Prop extends r.Parsed where
  lhs_unmarked : r.lhs.Unmarked
  /-- Otherwise the line would be the header of a test case. -/
  colon : r.lhs.isDigit = true → r.rhs.toList.getLast? ≠ some ':'

structure Grammar.Parsed (g : Grammar) : Prop where
  name : Text.FitsLine g.name
  initial : g.name.toList.head? = some 'G'
  no_arrow : ¬ ['-', '>'] <:+: g.name.toList
  alphabet : ∀ a ∈ g.alphabet, Text.isBlank a = false ∧ a ≠ '|'
  vars : ∀ v ∈ g.vars, Text.isBlank v = false ∧ v ≠ '|'
  start : ∀ v ∈ g.start, Text.isBlank v = false
  rules : ∀ r ∈ g.rules, r.Parsed

structure Grammar.Writable (g : Grammar) : Prop extends g.Parsed where
  alphabet_unmarked : ∀ a ∈ g.alphabet, a.Unmarked
  vars_unmarked : ∀ v ∈ g.vars, v.Unmarked
  start_unmarked : ∀ v ∈ g.start, v.Unmarked
  rules_writable : ∀ r ∈ g.rules, r.Writable
  rules := fun r hr => (rules_writable r hr).toParsed

/-- A name that is given for an operation but is not the name of one. -/
structure Request.Unheard (name : String) : Prop where
  fits : Text.FitsLine name
  nonempty : name ≠ ""
  no_operation : ∀ o : Operation, o.name ≠ name

/-- A name of no operation that, as a line, is content. -/
structure Request.Unmistakable (name : String) : Prop extends Request.Unheard name where
  not_heading : name.toList.head? ≠ some '#'
  not_skipped : name.toList.head? ≠ some '='
  not_caseHeader : Line.isCaseHeader name.toList = false
  not_grammarHeader : Line.isGrammarHeader name.toList = false

/-- What a document can say about an operation.  Of a name that no operation has, `P` is asked. -/
inductive Request.Named (P : String → Prop) : Request → Prop
  | known (o : Operation) : Named P (.ok o)
  | unknown {name : String} : P name → Named P (.error (.unknownOperation name))
  | missing : Named P .missing

theorem Request.Named.imp {P Q : String → Prop} {q : Request} (h : q.Named P)
    (weaker : ∀ name, P name → Q name) : q.Named Q := by
  cases h with
  | known o => exact .known o
  | unknown given => exact .unknown (weaker _ given)
  | missing => exact .missing

structure TestCase.Parsed (t : TestCase) : Prop where
  id : Text.FitsLine t.id
  initial : ∃ d ∈ t.id.toList.head?, d.isDigit = true
  grammars : ∀ g ∈ t.grammars, g.Parsed
  request : t.request.Named Request.Unheard

structure TestCase.Writable (t : TestCase) : Prop extends t.Parsed where
  grammars_writable : ∀ g ∈ t.grammars, g.Writable
  request_unmistakable : t.request.Named Request.Unmistakable
  grammars := fun g hg => (grammars_writable g hg).toParsed
  request := request_unmistakable.imp fun _ h => h.toUnheard

instance (s : String) : Decidable (Text.FitsLine s) := decidable_of_iff _ (Text.fitsLine_iff s).symm

instance (a : Symbol) : Decidable a.Unmarked := decidable_of_iff _ (Symbol.unmarked_iff a).symm

instance (a : Symbol) : Decidable a.OpensLine := decidable_of_iff _ (Symbol.opensLine_iff a).symm

instance (r : Rule) : Decidable r.Parsed := decidable_of_iff _ (Rule.parsed_iff r).symm

instance (r : Rule) : Decidable r.Writable := decidable_of_iff _ (Rule.writable_iff r).symm

namespace Document

open Reader

section Lines

theorem means_heading (s : Section) : Means (heading s) (.sectionHeader s.name) := by
  cases s <;> exact ⟨by decide, by decide, by decide⟩

variable {s : String} {c : Char}

theorem trim_colon (fits : Text.FitsLine s) (initial : s.toList.head? = some c) :
    Text.trim (s ++ ":").toList = s.toList ++ [':'] := by
  have ends := (Text.trim_eq_self_iff s.toList).mp fits.trimmed
  rw [String.toList_append]
  refine (Text.trim_eq_self_iff _).mpr ⟨?_, ?_⟩
  · rw [List.head?_append, initial, Option.some_or, ← initial]
    exact ends.1
  · have colon : Text.isBlank ':' = false := by decide
    simpa using colon

theorem headerText_colon (fits : Text.FitsLine s) : Line.headerText (s.toList ++ [':']) = s := by
  rw [Line.headerText, List.dropLast_concat, fits.trimmed, String.ofList_toList]

theorem means_of_colon (fits : Text.FitsLine s) (initial : s.toList.head? = some c)
    (skipped : c ≠ '=') {x : Line} (meaning : Line.ofText (s.toList ++ [':']) = x) :
    Means (s ++ ":") x := by
  refine ⟨by simpa using fits.unbroken, ?_, ?_⟩
  · rw [trim_colon fits initial]
    simp [Line.isSignificant, initial, skipped]
  · rw [trim_colon fits initial, meaning]

theorem means_caseHeader (fits : Text.FitsLine s) (initial : s.toList.head? = some c)
    (digit : c.isDigit = true) : Means (s ++ ":") (.caseHeader s) := by
  apply means_of_colon fits initial
  · intro eq
    rw [eq] at digit
    exact absurd digit (by decide)
  · have header : Line.isCaseHeader (s.toList ++ [':']) = true := by
      simp [Line.isCaseHeader, initial, digit]
    rw [Line.ofText, if_pos header, headerText_colon fits]

theorem means_grammarHeader (fits : Text.FitsLine s) (initial : s.toList.head? = some 'G')
    (no_arrow : ¬ ['-', '>'] <:+: s.toList) : Means (s ++ ":") (.grammarHeader s) := by
  apply means_of_colon fits initial (by decide)
  have no_case : ¬ Line.isCaseHeader (s.toList ++ [':']) = true := by
    simp [Line.isCaseHeader, initial]
  have no_heading : ¬ ((s.toList ++ [':']).head? == some '#') = true := by
    simp [initial]
  have whole : Text.splitArrow? (s.toList ++ [':']) = none := by
    rw [Text.splitArrow?_eq_none_iff, List.infix_concat_iff, not_or]
    refine ⟨fun arrow => ?_, no_arrow⟩
    have last := arrow.getLast (by simp)
    simp at last
  have header : Line.isGrammarHeader (s.toList ++ [':']) = true := by
    simp [Line.isGrammarHeader, initial, whole]
  rw [Line.ofText, if_neg no_case, if_neg no_heading, if_pos header, headerText_colon fits]

theorem ofText_of_content {cs : List Char} (no_case : Line.isCaseHeader cs = false)
    (no_heading : cs.head? ≠ some '#') (no_grammar : Line.isGrammarHeader cs = false) :
    Line.ofText cs = .content cs := by
  simp [Line.ofText, no_case, no_heading, no_grammar]

theorem means_symbol {a : Symbol} (h : a.OpensLine) : Means a.toString (.content [a]) := by
  have trimmed : Text.trim a.toString.toList = [a] := by
    rw [Char.toString, String.toList_singleton, Text.trim_singleton h.plain]
  refine ⟨?_, ?_, ?_⟩
  · intro broken
    obtain rfl : '\n' = a := by simpa using broken
    exact absurd h.plain (by decide)
  · rw [trimmed]
    simpa [Line.isSignificant] using h.not_skipped
  · rw [trimmed]
    -- A lone colon ends a header but does not begin one.
    by_cases colon : a = ':'
    · rw [colon]
      decide
    · apply ofText_of_content
      · simp [Line.isCaseHeader, colon]
      · simpa using h.not_heading
      · simp [Line.isGrammarHeader, colon]

theorem means_operationName (o : Operation) : Means o.name (.content o.name.toList) := by
  cases o <;> exact ⟨by decide, by decide, by decide⟩

theorem means_unknownName (h : Request.Unmistakable s) : Means s (.content s.toList) := by
  refine ⟨h.fits.unbroken, ?_, ?_⟩
  · rw [h.fits.trimmed]
    simp [Line.isSignificant, h.nonempty, h.not_skipped]
  · rw [h.fits.trimmed]
    exact ofText_of_content h.not_caseHeader h.not_heading h.not_grammarHeader

end Lines

section RuleLines

variable {r : Rule}

/-- The line of a rule between its ends.  Nothing follows the arrow when the right-hand side is
empty, as the blank after the arrow is then at the end of the line. -/
def ruleText (r : Rule) : List Char :=
  r.lhs :: ' ' :: '-' :: '>' :: if r.rhs = "" then [] else ' ' :: r.rhs.toList

theorem getLast?_ruleText (r : Rule) :
    (ruleText r).getLast? = some (r.rhs.toList.getLast?.getD '>') := by
  by_cases empty : r.rhs = ""
  · simp [ruleText, empty]
  · have nonempty : r.rhs.toList ≠ [] := by simpa using empty
    simp [ruleText, empty, List.getLast?_cons, List.getLast?_eq_some_getLast nonempty]

theorem trim_ruleText (h : r.Writable) : Text.trim (ruleText r) = ruleText r := by
  have arrow : Text.isBlank '>' = false := by decide
  refine (Text.trim_eq_self_iff _).mpr ⟨by simpa [ruleText] using h.lhs, ?_⟩
  rw [getLast?_ruleText]
  intro c hc
  obtain rfl := Option.mem_some_iff.mp hc
  cases last : r.rhs.toList.getLast? with
  | none => exact arrow
  | some c => exact ((Text.trim_eq_self_iff _).mp h.rhs.trimmed).2 c last

theorem toList_ruleLine (r : Rule) :
    (ruleLine r).toList = r.lhs :: ' ' :: '-' :: '>' :: ' ' :: r.rhs.toList := by
  simp [ruleLine, Char.toString]

theorem trim_ruleLine (h : r.Writable) : Text.trim (ruleLine r).toList = ruleText r := by
  by_cases empty : r.rhs = ""
  · have padded : (ruleLine r).toList = ruleText r ++ [' '] := by
      simp [toList_ruleLine, ruleText, empty]
    rw [padded, Text.trim_append_space, trim_ruleText h]
  · have whole : (ruleLine r).toList = ruleText r := by simp [toList_ruleLine, ruleText, empty]
    rw [whole, trim_ruleText h]

theorem means_ruleLine (h : r.Writable) : Means (ruleLine r) (.content (ruleText r)) := by
  refine ⟨?_, ?_, ?_⟩
  · have lhs : '\n' ≠ r.lhs := by
      intro eq
      exact absurd h.lhs (eq ▸ by decide)
    simpa [toList_ruleLine, lhs] using h.rhs.unbroken
  · rw [trim_ruleLine h]
    simpa [Line.isSignificant, ruleText] using h.lhs_unmarked.not_skipped
  · rw [trim_ruleLine h]
    apply ofText_of_content
    -- The line ends in the arrow or with its right-hand side.
    · have colon := h.colon
      rw [Line.isCaseHeader, getLast?_ruleText]
      cases last : r.rhs.toList.getLast? with
      | none => simp
      | some c =>
        rw [last] at colon
        by_cases digit : r.lhs.isDigit = true
        · simpa [ruleText, digit] using colon digit
        · simp [ruleText, digit]
    · simpa [ruleText] using h.lhs_unmarked.not_heading
    · simp [Line.isGrammarHeader, ruleText, Text.splitArrow?_rule]

theorem alternatives_ruleText (h : r.Writable) : alternatives (ruleText r) = .ok [r] := by
  have lhs : symbol (Text.trim [r.lhs, ' ']) = .ok r.lhs := by
    rw [← List.singleton_append, Text.trim_append_space, Text.trim_singleton h.lhs]
    rfl
  have rhs (text : List Char) (single : '|' ∉ text) (trimmed : Text.trim text = r.rhs.toList) :
      (text.splitOn '|').map (fun rhs => (⟨r.lhs, String.ofList (Text.trim rhs)⟩ : Rule)) =
        [r] := by
    rw [Text.splitOn_of_not_mem single, List.map_singleton, trimmed, String.ofList_toList]
  rw [alternatives, ruleText, Text.splitArrow?_rule]
  dsimp only
  rw [lhs]
  apply congrArg Except.ok
  by_cases empty : r.rhs = ""
  · rw [if_pos empty]
    exact rhs [] (by simp) (by rw [empty]; rfl)
  · rw [if_neg empty]
    exact rhs _ (by simpa using h.single) (by rw [Text.trim_space_cons, h.rhs.trimmed])

end RuleLines

end Document

end RightLinear
