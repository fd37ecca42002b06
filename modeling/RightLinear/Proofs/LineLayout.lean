import Mathlib.Data.List.TakeWhile
import RightLinear.Proofs.JoinedDocuments

namespace RightLinear

namespace Text

/-- The lines of a text.  A newline ends its line, so that none begins behind the last newline. -/
def lines (cs : List Char) : List (List Char) :=
  let pieces := cs.splitOn '\n'
  if pieces.getLast? = some [] then pieces.dropLast else pieces

/-- The line is blank, or `=` is its first character that is no blank. -/
def IsFiller (cs : List Char) : Prop := ∀ c ∈ cs.find? (fun c => !isBlank c), c = '='

instance (cs : List Char) : Decidable (IsFiller cs) :=
  decidable_of_iff ((cs.find? fun c => !isBlank c).all (· == '=') = true)
    (by simp [IsFiller, Option.all_eq_true])

theorem head?_trim (cs : List Char) : (trim cs).head? = cs.find? fun c => !isBlank c := by
  have settled : trimStart (trimStart cs) = trimStart cs := List.dropWhile_idempotent isBlank cs
  have again : trim cs = trim (trimStart cs) := by rw [trim, trim, settled]
  rw [List.find?_not_eq_head?_dropWhile, ← trimStart]
  cases start : trimStart cs with
  | nil =>
    rw [again, start]
    rfl
  | cons c rest =>
    rw [start] at settled
    have plain : isBlank c = false := (trimStart_eq_self_iff _).mp settled c rfl
    rw [again, start, head?_trim_cons plain, List.head?_cons]

end Text

namespace Line

theorem isSignificant_eq_false_iff (cs : List Char) :
    isSignificant cs = false ↔ ∀ c ∈ cs.head?, c = '=' := by
  cases cs with
  | nil => simp [isSignificant]
  | cons c cs => simp [isSignificant]

theorem numberedFrom_filler {lines : List (List Char)} (filler : ∀ l ∈ lines, Text.IsFiller l)
    (k : Nat) : numberedFrom k lines = [] := by
  apply List.filter_eq_nil_iff.mpr
  intro x hx
  obtain ⟨cs, n⟩ := x
  obtain ⟨l, hl, rfl⟩ := List.mem_map.mp (List.fst_mem_of_mem_zipIdx hx)
  have passed : isSignificant (Text.trim l) = false := by
    rw [isSignificant_eq_false_iff, Text.head?_trim]
    exact filler l hl
  simp only [passed, Bool.false_eq_true, not_false_eq_true]

theorem numbered_eq_numberedFrom_lines (document : List Char) :
    numbered document = numberedFrom 1 (Text.lines document) := by
  rw [numbered_eq, Text.lines]
  split
  · next last =>
    obtain ⟨pieces, eq⟩ := List.getLast?_eq_some_iff.mp last
    have empty : Text.IsFiller [] := by simp [Text.IsFiller]
    rw [eq, List.dropLast_concat, numberedFrom_append,
      numberedFrom_filler (List.forall_mem_singleton.mpr empty), List.append_nil]
  · rfl

end Line

/-- What another layout puts around a line: lines above it that are passed over, and blanks. -/
structure Margin where
  above : List (List Char)
  left : List Char
  right : List Char
  isFiller_above : ∀ l ∈ above, Text.IsFiller l
  isBlank_left : ∀ c ∈ left, Text.isBlank c = true
  isBlank_right : ∀ c ∈ right, Text.isBlank c = true

def Margin.around (m : Margin) (line : List Char) : List Char := m.left ++ line ++ m.right

theorem Margin.trim_around (m : Margin) (line : List Char) :
    Text.trim (m.around line) = Text.trim line := by
  rw [around, Text.trim_append_right m.isBlank_right, Text.trim_append_left m.isBlank_left]

/-- Another layout for a document: a margin for each of its lines, until there are no more margins,
and lines below the last one that are passed over. -/
structure Layout where
  margins : List Margin
  below : List (List Char)
  isFiller_below : ∀ l ∈ below, Text.IsFiller l

namespace Layout

def relay : List Margin → List (List Char) → List (List Char)
  | [], lines => lines
  | _ :: _, [] => []
  | m :: ms, line :: lines => m.above ++ m.around line :: relay ms lines

def addedAbove (ms : List Margin) (n : Nat) : Nat := ((ms.take n).flatMap Margin.above).length

def number (L : Layout) (n : Nat) : Nat := n + addedAbove L.margins n

def around (L : Layout) (n : Nat) (line : List Char) : List Char :=
  (L.margins[n - 1]?).elim line fun m => m.around line

/-- The second document has the lines of the first in the new layout. -/
def Relays (L : Layout) (a b : String) : Prop :=
  Text.lines b.toList = relay L.margins (Text.lines a.toList) ++ L.below

instance (L : Layout) (a b : String) : Decidable (L.Relays a b) :=
  inferInstanceAs (Decidable (_ = _))

section Numbers

theorem addedAbove_cons (m : Margin) (ms : List Margin) (n : Nat) :
    addedAbove (m :: ms) (n + 1) = m.above.length + addedAbove ms n := by
  simp [addedAbove]

/-- The lines that are to be read keep their texts, and their numbers grow by what is put in above
them. -/
theorem numberedFrom_relay (ms : List Margin) (lines : List (List Char)) :
    Line.numberedFrom 1 (relay ms lines) =
      (Line.numberedFrom 1 lines).map (Prod.map id fun n => n + addedAbove ms n) := by
  induction ms generalizing lines with
  | nil =>
    have same : (fun n => n + addedAbove [] n) = id := by
      funext n
      simp [addedAbove]
    rw [relay, same, Prod.map_id, List.map_id]
  | cons m ms ih =>
    cases lines with
    | nil => rfl
    | cons line lines =>
      have first : Line.numberedFrom (1 + m.above.length) [m.around line] =
          (Line.numberedFrom 1 [line]).map
            (Prod.map id fun n => n + addedAbove (m :: ms) n) := by
        simp only [Line.numberedFrom, List.map_singleton, m.trim_around, List.zipIdx_singleton]
        by_cases read : Line.isSignificant (Text.trim line) = true
        · simp [read, addedAbove]
        · simp [read]
      have rest : Line.numberedFrom (1 + m.above.length + 1) (relay ms lines) =
          (Line.numberedFrom (1 + 1) lines).map
            (Prod.map id fun n => n + addedAbove (m :: ms) n) := by
        rw [Nat.add_assoc, Line.numberedFrom_add, ih, Line.numberedFrom_add, List.map_map,
          List.map_map, Prod.map_comp_map, Prod.map_comp_map]
        congr 2
        funext n
        simp only [Function.comp_apply, addedAbove_cons]
        omega
      calc
        Line.numberedFrom 1 (relay (m :: ms) (line :: lines))
          = Line.numberedFrom 1 (m.above ++ ([m.around line] ++ relay ms lines)) := rfl
        _ = Line.numberedFrom (1 + m.above.length) [m.around line] ++
            Line.numberedFrom (1 + m.above.length + 1) (relay ms lines) := by
          rw [Line.numberedFrom_append, Line.numberedFrom_filler m.isFiller_above, List.nil_append,
            Line.numberedFrom_append, List.length_singleton]
        _ = (Line.numberedFrom 1 [line] ++ Line.numberedFrom (1 + 1) lines).map
            (Prod.map id fun n => n + addedAbove (m :: ms) n) := by
          rw [first, rest, List.map_append]
        _ = (Line.numberedFrom 1 (line :: lines)).map
            (Prod.map id fun n => n + addedAbove (m :: ms) n) :=
          congrArg (List.map _) (Line.numberedFrom_append 1 [line] lines).symm

theorem getElem?_relay (ms : List Margin) (lines : List (List Char)) (i : Nat) :
    (relay ms lines)[i + addedAbove ms (i + 1)]? =
      lines[i]?.map fun line => (ms[i]?).elim line fun m => m.around line := by
  induction ms generalizing lines i with
  | nil => simp [relay, addedAbove]
  | cons m ms ih =>
    cases lines with
    | nil => simp [relay]
    | cons line lines =>
      cases i with
      | zero => simp [relay, addedAbove]
      | succ i =>
        have place : i + 1 + addedAbove (m :: ms) (i + 1 + 1) =
            m.above.length + (i + addedAbove ms (i + 1) + 1) := by
          rw [addedAbove_cons]
          omega
        rw [relay, place, List.getElem?_append_right (Nat.le_add_right _ _),
          Nat.add_sub_cancel_left, List.getElem?_cons_succ, ih]
        simp

end Numbers

theorem numbered_of_relays {L : Layout} {a b : String} (relays : L.Relays a b) :
    Line.numbered b.toList = (Line.numbered a.toList).map (Prod.map id L.number) := by
  rw [Line.numbered_eq_numberedFrom_lines, Line.numbered_eq_numberedFrom_lines, relays,
    Line.numberedFrom_append, Line.numberedFrom_filler L.isFiller_below, List.append_nil]
  exact numberedFrom_relay L.margins _

theorem mem_zipIdx_of_relays {L : Layout} {a b : String} (relays : L.Relays a b)
    {line : List Char} {n : Nat} (placed : (line, n) ∈ (Text.lines a.toList).zipIdx 1) :
    (L.around n line, L.number n) ∈ (Text.lines b.toList).zipIdx 1 := by
  rw [List.mk_mem_zipIdx_iff_le_and_getElem?_sub] at placed ⊢
  obtain ⟨pos, found⟩ := placed
  have moved := getElem?_relay L.margins (Text.lines a.toList) (n - 1)
  rw [Nat.sub_add_cancel pos, found, Option.map_some] at moved
  obtain ⟨within, _⟩ := List.getElem?_eq_some_iff.mp moved
  have place : L.number n - 1 = n - 1 + addedAbove L.margins n := by
    rw [number]
    omega
  refine ⟨by rw [number]; omega, ?_⟩
  rw [relays, place, List.getElem?_append_left within, moved]
  rfl

end Layout

namespace Reader

theorem exists_of_readLines_eq_error {r : Reader} {lines : List (List Char × Nat)} {e : Error}
    (fails : r.readLines lines = .error e) :
    ∃ l ∈ lines, ∃ fault : LineFault, e = .parse l.2 fault.message := by
  induction lines generalizing r with
  | nil => cases fails
  | cons line lines ih =>
    rw [readLines_cons] at fails
    cases read : r.read (.ofText line.1) with
    | error fault =>
      rw [read] at fails
      exact ⟨line, List.mem_cons_self, fault, (Except.error.inj fails).symm⟩
    | ok next =>
      rw [read] at fails
      obtain ⟨l, hl, fault, eq⟩ := ih fails
      exact ⟨l, List.mem_cons_of_mem line hl, fault, eq⟩

end Reader

namespace Document

variable {L : Layout} {a b : String}

theorem parse_of_relays (relays : L.Relays a b) :
    parse b = (parse a).mapError (.renumbered L.number) := by
  rw [parse, Layout.numbered_of_relays relays, Reader.readLines_renumbered, parse,
    Results.map_mapError]

theorem exists_line_of_parse_eq_error {e : Error} (fails : parse a = .error e) :
    ∃ n line, ∃ fault : LineFault,
      (line, n) ∈ (Text.lines a.toList).zipIdx 1 ∧ e = .parse n fault.message := by
  obtain ⟨⟨cs, n⟩, found, fault, eq⟩ :=
    Reader.exists_of_readLines_eq_error (Results.map_eq_error_iff.mp fails)
  rw [Line.numbered_eq_numberedFrom_lines, Line.numberedFrom, List.zipIdx_map] at found
  obtain ⟨⟨line, k⟩, placed, same⟩ := List.mem_map.mp (List.mem_of_mem_filter found)
  obtain ⟨rfl, rfl⟩ := Prod.mk.inj same
  exact ⟨_, line, fault, placed, eq⟩

/-- In another layout a document has the same test cases, or the same fault in the same line. -/
theorem parse_relaid (relays : L.Relays a b) :
    (∀ ts, parse a = .ok ts → parse b = .ok ts) ∧
    ∀ e, parse a = .error e → ∃ n line, ∃ fault : LineFault, e = .parse n fault.message ∧
      (line, n) ∈ (Text.lines a.toList).zipIdx 1 ∧
      (L.around n line, L.number n) ∈ (Text.lines b.toList).zipIdx 1 ∧
      parse b = .error (.parse (L.number n) fault.message) := by
  rw [parse_of_relays relays]
  refine ⟨fun ts read => by rw [read]; rfl, ?_⟩
  intro e fails
  obtain ⟨n, line, fault, placed, rfl⟩ := exists_line_of_parse_eq_error fails
  exact ⟨n, line, fault, rfl, placed, Layout.mem_zipIdx_of_relays relays placed,
    by rw [fails]; rfl⟩

/-- Lines above the first and the fourth line, blanks of several kinds, and a line below the
last. -/
def spacious : Layout where
  margins :=
    [⟨["== 1: ==".toList, "\t".toList], " ".toList, "\r".toList, by decide,
      List.all_eq_true.mp rfl, List.all_eq_true.mp rfl⟩,
     ⟨[], [], [], by decide, by simp, by simp⟩,
     ⟨[], [], " ".toList, by decide, by simp, List.all_eq_true.mp rfl⟩,
     ⟨["\u2003=".toList], "\x0b".toList, "\u00a0".toList, by decide, List.all_eq_true.mp rfl,
      List.all_eq_true.mp rfl⟩]
  below := [" ".toList]
  isFiller_below := by decide

theorem parse_relaid_spacious :
    spacious.Relays "1:\nG:\n#Alphabet\nab"
      "== 1: ==\n\t\n 1:\r\nG:\n#Alphabet \n\u2003=\n\x0bab\u00a0\n \n" ∧
    parse "1:\nG:\n#Alphabet\nab" =
      .error (.parse 4 "expected a single-character symbol, found `ab`") ∧
    parse "== 1: ==\n\t\n 1:\r\nG:\n#Alphabet \n\u2003=\n\x0bab\u00a0\n \n" =
      .error (.parse 7 "expected a single-character symbol, found `ab`") ∧
    spacious.Relays "1:\nG:\n#Alphabet\na\n"
      "== 1: ==\n\t\n 1:\r\nG:\n#Alphabet \n\u2003=\n\x0ba\u00a0\n " ∧
    parse "== 1: ==\n\t\n 1:\r\nG:\n#Alphabet \n\u2003=\n\x0ba\u00a0\n " =
      .ok [{ id := "1", grammars := [{ name := "G", alphabet := .ofList ['a'] }] }] := by
  have wrong : spacious.Relays "1:\nG:\n#Alphabet\nab"
      "== 1: ==\n\t\n 1:\r\nG:\n#Alphabet \n\u2003=\n\x0bab\u00a0\n \n" := by decide +kernel
  have fails : parse "1:\nG:\n#Alphabet\nab" =
      .error (.parse 4 "expected a single-character symbol, found `ab`") := by
    decide +kernel
  obtain ⟨n, line, fault, eq, _, _, moved⟩ := (parse_relaid wrong).2 _ fails
  obtain ⟨rfl, worded⟩ := Error.parse.inj eq
  rw [← worded] at moved
  have right : spacious.Relays "1:\nG:\n#Alphabet\na\n"
      "== 1: ==\n\t\n 1:\r\nG:\n#Alphabet \n\u2003=\n\x0ba\u00a0\n " := by decide +kernel
  exact ⟨wrong, fails, moved, right, (parse_relaid right).1 _ (by decide +kernel)⟩

end Document

end RightLinear
