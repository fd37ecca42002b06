import RightLinear.Proofs.WrittenLines

namespace RightLinear

/-- The rules for the alternatives between the bars of a right-hand side. -/
def Rule.ofAlternatives (lhs : Symbol) (rhs : List Char) : List Rule :=
  (rhs.splitOn '|').map fun text => ⟨lhs, String.ofList (Text.trim text)⟩

section Texts

variable {a : Symbol} {pad rest : List Char} (blank : ∀ c ∈ pad, Text.isBlank c = true)

include blank

theorem Text.splitArrow?_cons_append :
    splitArrow? (a :: (pad ++ '-' :: '>' :: rest)) = some (a :: pad, rest) := by
  induction pad generalizing a with
  | nil =>
    rw [List.nil_append, splitArrow?, splitArrow?, Option.map_some]
    exact fun _ _ tip => absurd (List.cons.inj tip).1 (by decide)
  | cons b pad ih =>
    obtain ⟨here, later⟩ := List.forall_mem_cons.mp blank
    rw [List.cons_append, splitArrow?, ih later, Option.map_some]
    intro _ _ tip
    rw [(List.cons.inj tip).1] at here
    exact absurd here (by decide)

theorem Reader.alternatives_cons_append (plain : Text.isBlank a = false) :
    alternatives (a :: (pad ++ '-' :: '>' :: rest)) = .ok (Rule.ofAlternatives a rest) := by
  have lhs : Text.trim (a :: pad) = [a] := by
    rw [← List.singleton_append, Text.trim_append_right blank, Text.trim_singleton plain]
  rw [alternatives, Text.splitArrow?_cons_append blank]
  dsimp only
  rw [lhs]
  rfl

/-- Only the header of a test case is recognised without a look at the arrow. -/
theorem Line.ofText_rule (opens : a.OpensLine)
    (no_header : a.isDigit = true → (a :: (pad ++ '-' :: '>' :: rest)).getLast? ≠ some ':') :
    ofText (a :: (pad ++ '-' :: '>' :: rest)) = .content (a :: (pad ++ '-' :: '>' :: rest)) := by
  apply Document.ofText_of_content
  · simpa [isCaseHeader] using no_header
  · simpa using opens.not_heading
  · simp [isGrammarHeader, Text.splitArrow?_cons_append blank]

end Texts

namespace Reader

variable {r : Reader} {t : TestCase} {gs : List Grammar} {g : Grammar}

theorem modifyGrammar_of_concat (current : r.current = some t) (last : t.grammars = gs ++ [g])
    (f : Grammar → Grammar) : r.modifyGrammar f =
      .ok { r with current := some { t with grammars := gs ++ [f g] } } := by
  simp [modifyGrammar, current, last]

/-- A line of rules is read as such, unless it begins with a digit and ends with a colon. -/
theorem readLine_rule (r : Reader) (t : TestCase) (gs : List Grammar) (g : Grammar)
    (opened : r.openSection = some .rules) (current : r.current = some t)
    (last : t.grammars = gs ++ [g]) (line : List Char) (a : Symbol) (pad rhs : List Char)
    (form : Text.trim line = a :: (pad ++ '-' :: '>' :: rhs))
    (blank : ∀ c ∈ pad, Text.isBlank c = true) (opens : a.OpensLine) :
    ((a.isDigit = true → (Text.trim line).getLast? ≠ some ':') →
      r.readLine line = .ok { r with current := some { t with
        grammars := gs ++ [{ g with rules := g.rules ++ Rule.ofAlternatives a rhs }] } }) ∧
    (a.isDigit = true → (Text.trim line).getLast? = some ':' →
      r.readLine line =
        .ok { finished := r.cases, current := some { id := Line.headerText (Text.trim line) } }) := by
  have significant : Line.isSignificant (Text.trim line) = true := by
    simpa [form, Line.isSignificant] using opens.not_skipped
  rw [readLine, if_pos significant]
  constructor
  · intro no_header
    rw [form] at no_header ⊢
    have content : r.readContent (a :: (pad ++ '-' :: '>' :: rhs)) =
        r.modifyGrammar fun g => { g with rules := g.rules ++ Rule.ofAlternatives a rhs } := by
      rw [readContent, opened]
      dsimp only
      rw [alternatives_cons_append blank opens.plain]
      rfl
    rw [Line.ofText_rule blank opens no_header, read, content]
    exact modifyGrammar_of_concat current last _
  · intro digit colon
    have header : Line.isCaseHeader (Text.trim line) = true := by
      rw [Line.isCaseHeader, colon]
      simpa [form] using digit
    rw [Line.ofText, if_pos header]
    rfl

def inRules (rules : List Rule) : Reader where
  current := some { id := "1", grammars := [{ name := "G" }, { name := "H", rules := rules }] }
  openSection := some .rules

/-- An arrow behind a part of one; a colon at the end of an alternative, with a bar after it and
without. -/
theorem readLine_rule_inRules :
    (inRules []).readLine " - ->1|x ".toList = .ok (inRules [⟨'-', "1"⟩, ⟨'-', "x"⟩]) ∧
    (inRules []).readLine "1->a:|".toList = .ok (inRules [⟨'1', "a:"⟩, ⟨'1', ""⟩]) ∧
    (inRules []).readLine "1->a:".toList =
      .ok { finished := (inRules []).cases, current := some { id := "1->a" } } := by
  have read := readLine_rule (inRules []) _ [{ name := "G" }] { name := "H" } rfl rfl rfl
  have tip := read " - ->1|x ".toList '-' [' '] "1|x".toList (by decide)
    (List.forall_mem_singleton.mpr Text.isBlank_space) (by decide)
  have bar := read "1->a:|".toList '1' [] "a:|".toList (by decide) nofun (by decide)
  have header := read "1->a:".toList '1' [] "a:".toList (by decide) nofun (by decide)
  exact ⟨tip.1 (by decide), bar.1 (by decide), header.2 (by decide) (by decide)⟩

/-- A rule closes the test case that it stands in when its left-hand side is a digit and a colon
ends its right-hand side. -/
theorem parse_rule_of_digit_colon :
    Document.parse "1:\nG:\n#Variables\n1\n#Rules\n1 -> a:\n" =
      .ok [{ id := "1", grammars := [{ name := "G", vars := .ofList ['1'] }] },
        { id := "1 -> a" }] ∧
    ¬ ∀ (r : Reader) (t : TestCase) (gs : List Grammar) (g : Grammar),
      r.openSection = some .rules → r.current = some t → t.grammars = gs ++ [g] →
      ∀ (line : List Char) (a : Symbol) (rhs : List Char),
        Text.trim line = a :: ' ' :: '-' :: '>' :: ' ' :: rhs → a.OpensLine →
        r.readLine line = .ok { r with current := some { t with
          grammars := gs ++ [{ g with rules := g.rules ++ Rule.ofAlternatives a rhs }] } } := by
  refine ⟨by decide +kernel, fun always => ?_⟩
  have claimed := always (inRules []) _ [{ name := "G" }] { name := "H" } rfl rfl rfl
    "1 -> a:".toList '1' "a:".toList (by decide) (by decide)
  exact absurd claimed (by decide +kernel)

end Reader

end RightLinear
