import RightLinear.Proofs.DocumentReading
import RightLinear.Proofs.Results

namespace RightLinear

namespace Text

theorem length_splitOn (a : Char) (cs : List Char) : (cs.splitOn a).length = cs.count a + 1 := by
  induction cs with
  | nil => rfl
  | cons c cs ih =>
    rw [List.splitOn] at ih ⊢
    rw [List.splitOnP_cons_eq_if_modifyHead, List.count_cons]
    split
    · rw [List.length_cons, ih]
    · rw [List.length_modifyHead, ih, Nat.add_zero]

end Text

namespace Line

/-- Those of the lines that are to be read, when they are numbered from `k`. -/
def numberedFrom (k : Nat) (lines : List (List Char)) : List (List Char × Nat) :=
  ((lines.map Text.trim).zipIdx k).filter fun (cs, _) => isSignificant cs

theorem numbered_eq (document : List Char) :
    numbered document = numberedFrom 1 (document.splitOn '\n') := rfl

theorem numberedFrom_append (k : Nat) (xs ys : List (List Char)) :
    numberedFrom k (xs ++ ys) = numberedFrom k xs ++ numberedFrom (k + xs.length) ys := by
  rw [numberedFrom, List.map_append, List.zipIdx_append, List.filter_append, List.length_map]
  rfl

theorem numberedFrom_add (k j : Nat) (lines : List (List Char)) :
    numberedFrom (k + j) lines = (numberedFrom k lines).map (Prod.map id (· + j)) := by
  rw [numberedFrom, Nat.add_comm, ← List.map_snd_add_zipIdx_eq_zipIdx, List.filter_map]
  rfl

theorem numbered_append_newline (cs ds : List Char) :
    numbered (cs ++ '\n' :: ds) =
      numbered cs ++ (numbered ds).map (Prod.map id (· + (cs.count '\n' + 1))) := by
  have cut : (cs ++ '\n' :: ds).splitOn '\n' = cs.splitOn '\n' ++ ds.splitOn '\n' :=
    List.splitOnP_append_cons cs ds (beq_self_eq_true '\n')
  rw [numbered_eq, cut, numberedFrom_append, numberedFrom_add, Text.length_splitOn]
  rfl

/-- What comes after a newline at the end of a text is counted on from there. -/
theorem numbered_append {cs ds : List Char} (whole : cs = [] ∨ cs.getLast? = some '\n') :
    numbered (cs ++ ds) = numbered cs ++ (numbered ds).map (Prod.map id (· + cs.count '\n')) := by
  have blank : numbered [] = [] := by decide
  rcases whole with empty | ended
  · subst empty
    rw [blank]
    exact (List.map_id _).symm
  · obtain ⟨cs, rfl⟩ := List.getLast?_eq_some_iff.mp ended
    have alone : numbered (cs ++ ['\n']) = numbered cs := by
      rw [numbered_append_newline, blank, List.map_nil, List.append_nil]
    rw [alone, List.append_assoc, List.singleton_append, numbered_append_newline, List.count_append,
      List.count_singleton_self]

end Line

/-- The error when `k` more lines stand before the text that it is about. -/
def Error.later (k : Nat) : Error → Error
  | parse line message => .parse (line + k) message
  | e => e

def Error.renumbered (f : Nat → Nat) : Error → Error
  | parse line message => .parse (f line) message
  | e => e

theorem Error.later_eq (k : Nat) : Error.later k = Error.renumbered (· + k) := by
  funext e
  cases e <;> rfl

namespace Reader

/-- The reader behind test cases that were finished before. -/
def after (ts : List TestCase) (r : Reader) : Reader := { r with finished := ts ++ r.finished }

theorem cases_after (ts : List TestCase) (r : Reader) : (r.after ts).cases = ts ++ r.cases :=
  List.append_assoc ts r.finished r.current.toList

variable (r : Reader) (ts : List TestCase)

theorem modifyGrammar_after (f : Grammar → Grammar) :
    (r.after ts).modifyGrammar f = (r.modifyGrammar f).map (after ts) := by
  obtain ⟨finished, current, opened⟩ := r
  cases current with
  | none => rfl
  | some t =>
    simp only [modifyGrammar, after]
    cases t.grammars.getLast? <;> rfl

theorem setRequest_after (q : Request) :
    (r.after ts).setRequest q = (r.setRequest q).map (after ts) := by
  obtain ⟨finished, current, opened⟩ := r
  cases current <;> rfl

theorem bind_modifyGrammar_after {α : Type} (x : Except LineFault α) (f : α → Grammar → Grammar) :
    (x.bind fun a => (r.after ts).modifyGrammar (f a)) =
      (x.bind fun a => r.modifyGrammar (f a)).map (after ts) := by
  cases x with
  | error fault => rfl
  | ok a => exact modifyGrammar_after r ts (f a)

theorem readContent_after (text : List Char) :
    (r.after ts).readContent text = (r.readContent text).map (after ts) := by
  obtain ⟨finished, current, opened⟩ := r
  cases opened with
  | none => rfl
  | some s =>
    cases s with
    | alphabet => exact bind_modifyGrammar_after _ ts _ _
    | vars => exact bind_modifyGrammar_after _ ts _ _
    | start => exact bind_modifyGrammar_after _ ts _ _
    | rules => exact bind_modifyGrammar_after _ ts _ _
    | operation => exact setRequest_after _ ts _

theorem read_after (x : Line) : (r.after ts).read x = (r.read x).map (after ts) := by
  cases x with
  | caseHeader id =>
    rw [read, cases_after]
    rfl
  | sectionHeader name =>
    simp only [read]
    cases Section.ofName? name <;> rfl
  | grammarHeader name =>
    obtain ⟨finished, current, opened⟩ := r
    cases current <;> rfl
  | content text => exact readContent_after r ts text

theorem readLines_cons (cs : List Char) (n : Nat) (lines : List (List Char × Nat)) :
    r.readLines ((cs, n) :: lines) =
      ((r.read (.ofText cs)).mapError fun fault => .parse n fault.message).bind fun next =>
        next.readLines lines :=
  List.foldlM_cons

theorem readLines_after (lines : List (List Char × Nat)) :
    (r.after ts).readLines lines = (r.readLines lines).map (after ts) := by
  induction lines generalizing r with
  | nil => rfl
  | cons line lines ih =>
    rw [readLines_cons, readLines_cons, read_after]
    cases r.read (.ofText line.1) with
    | error fault => rfl
    | ok next => exact ih next

theorem readLines_renumbered (f : Nat → Nat) (lines : List (List Char × Nat)) :
    r.readLines (lines.map (Prod.map id f)) = (r.readLines lines).mapError (.renumbered f) := by
  induction lines generalizing r with
  | nil => rfl
  | cons line lines ih =>
    rw [List.map_cons, Prod.map, readLines_cons, readLines_cons, id]
    cases r.read (.ofText line.1) with
    | error fault => rfl
    | ok next => exact ih next

theorem readLines_later (k : Nat) (lines : List (List Char × Nat)) :
    r.readLines (lines.map (Prod.map id (· + k))) = (r.readLines lines).mapError (.later k) := by
  rw [Error.later_eq, readLines_renumbered]

theorem readLines_append (xs ys : List (List Char × Nat)) :
    r.readLines (xs ++ ys) = (r.readLines xs).bind fun next => next.readLines ys :=
  List.foldlM_append

/-- Nothing that is open when a case header comes is seen by the lines after it. -/
theorem readLines_of_caseHeader {lines : List (List Char × Nat)}
    (first : ∀ l ∈ lines.head?, Line.isCaseHeader l.1 = true) :
    (r.readLines lines).map cases =
      ((readLines {} lines).map cases).map fun ts => r.cases ++ ts := by
  cases lines with
  | nil => exact congrArg Except.ok (List.append_nil r.cases).symm
  | cons line lines =>
    obtain ⟨cs, n⟩ := line
    have header : Line.ofText cs = .caseHeader (Line.headerText cs) := if_pos (first _ rfl)
    have opened : r.read (.caseHeader (Line.headerText cs)) =
        (read {} (.caseHeader (Line.headerText cs))).map (after r.cases) := by
      simp [read, Except.map, after, cases]
    have onward (next : Reader) : ((next.after r.cases).readLines lines).map cases =
        ((next.readLines lines).map cases).map fun ts => r.cases ++ ts := by
      rw [readLines_after]
      cases next.readLines lines with
      | error e => rfl
      | ok last => exact congrArg Except.ok (cases_after r.cases last)
    rw [readLines_cons, readLines_cons, header, opened]
    exact onward _

end Reader

namespace Document

/-- The document is empty, or its last line is ended. -/
def IsWhole (document : String) : Prop :=
  document = "" ∨ document.toList.getLast? = some '\n'

/-- Among the lines that are to be read, if there are any, the first is a case header. -/
def BeginsWithCase (document : String) : Prop :=
  ∀ l ∈ (Line.numbered document.toList).head?, Line.isCaseHeader l.1 = true

instance (document : String) : Decidable (IsWhole document) :=
  inferInstanceAs (Decidable (_ ∨ _))

instance (document : String) : Decidable (BeginsWithCase document) :=
  inferInstanceAs (Decidable (∀ l ∈ (Line.numbered document.toList).head?, _))

variable {a b : String}

theorem parse_append (whole : IsWhole a) (fresh : BeginsWithCase b) :
    parse (a ++ b) = (parse a).bind fun xs =>
      ((parse b).mapError (.later (a.toList.count '\n'))).map fun ys => xs ++ ys := by
  have lines : Line.numbered (a ++ b).toList = Line.numbered a.toList ++
      (Line.numbered b.toList).map (Prod.map id (· + a.toList.count '\n')) := by
    rw [String.toList_append]
    exact Line.numbered_append (whole.imp_left fun empty => by rw [empty]; rfl)
  rw [parse, parse, lines, Reader.readLines_append]
  cases Reader.readLines {} (Line.numbered a.toList) with
  | error e => rfl
  | ok r =>
    have behind := Reader.readLines_of_caseHeader r fresh
    show (r.readLines _).map Reader.cases =
      ((parse b).mapError _).map fun ys => r.cases ++ ys
    rw [Reader.readLines_later, Results.map_mapError, behind, Results.map_mapError, parse]

/-- A document that begins with a test case keeps what it is alone when it is written after another
document: the test cases of both are found, and faults of either are found at their lines. -/
theorem parse_append_of_beginsWithCase (whole : IsWhole a) (fresh : BeginsWithCase b) :
    (∀ e, parse a = .error e → parse (a ++ b) = .error e) ∧
    (∀ xs ys, parse a = .ok xs → parse b = .ok ys → parse (a ++ b) = .ok (xs ++ ys)) ∧
    ∀ xs line message, parse a = .ok xs → parse b = .error (.parse line message) →
      parse (a ++ b) = .error (.parse (line + a.toList.count '\n') message) := by
  rw [parse_append whole fresh]
  refine ⟨?_, ?_, ?_⟩
  · intro e fails
    rw [fails]
    rfl
  · intro xs ys first second
    rw [first, second]
    rfl
  · intro xs line message first fails
    rw [first, fails]
    rfl

/-- The alphabet that is open at the end of the first document is closed for the second, where the
same line has no section. -/
theorem parse_append_of_beginsWithCase_openAlphabet :
    IsWhole "1:\nG:\n#Alphabet\na\n" ∧ BeginsWithCase "= next =\n 2:\n" ∧
    parse ("1:\nG:\n#Alphabet\na\n" ++ "= next =\n 2:\n") =
      .ok [{ id := "1", grammars := [{ name := "G", alphabet := .ofList ['a'] }] }, { id := "2" }] ∧
    parse ("1:\nG:\n#Alphabet\na\n" ++ "= next =\n 2:\na\n") =
      .error (.parse 7 "unexpected line `a`") ∧
    parse ("1:\na\n" ++ "= next =\n 2:\na\n") = .error (.parse 2 "unexpected line `a`") := by
  have whole : IsWhole "1:\nG:\n#Alphabet\na\n" := by decide
  have first : parse "1:\nG:\n#Alphabet\na\n" =
      .ok [{ id := "1", grammars := [{ name := "G", alphabet := .ofList ['a'] }] }] := by
    decide +kernel
  have fresh : BeginsWithCase "= next =\n 2:\n" := by decide +kernel
  have stray : BeginsWithCase "= next =\n 2:\na\n" := by decide +kernel
  refine ⟨whole, fresh, ?_, ?_, ?_⟩
  · exact (parse_append_of_beginsWithCase whole fresh).2.1 _ [{ id := "2" }] first (by rfl)
  · exact (parse_append_of_beginsWithCase whole stray).2.2 _ 3 _ first (by rfl)
  · exact (parse_append_of_beginsWithCase (by decide) stray).1 _ (by rfl)

end Document

end RightLinear
