import RightLinear.Document.Reader
import RightLinear.Proofs.TextLayout

namespace RightLinear

namespace Reader

def readLine (r : Reader) (line : List Char) : Except LineFault Reader :=
  if Line.isSignificant (Text.trim line) then r.read (.ofText (Text.trim line)) else .ok r

theorem readLines_eq_ok_iff (lines : List (List Char)) (k : Nat) (r r' : Reader) :
    r.readLines (((lines.map Text.trim).zipIdx k).filter fun (cs, _) => Line.isSignificant cs) =
      .ok r' ↔ lines.foldlM readLine r = .ok r' := by
  induction lines generalizing r k with
  | nil => exact ⟨fun h => by cases h; rfl, fun h => by cases h; rfl⟩
  | cons line lines ih =>
    rw [List.map_cons, List.zipIdx_cons, List.foldlM_cons, readLine, List.filter_cons]
    by_cases significant : Line.isSignificant (Text.trim line) = true
    · rw [if_pos significant, if_pos significant, readLines, List.foldlM_cons]
      dsimp only
      cases r.read (.ofText (Text.trim line)) with
      | error fault => exact ⟨nofun, nofun⟩
      | ok next => exact ih (k + 1) next
    · rw [if_neg significant, if_neg significant]
      exact ih (k + 1) r

/-- The text is one line, and it means `x`. -/
structure Means (text : String) (x : Line) : Prop where
  unbroken : '\n' ∉ text.toList
  significant : Line.isSignificant (Text.trim text.toList) = true
  meaning : Line.ofText (Text.trim text.toList) = x

/-- The texts are lines, and from every reader with `P` they are read without a fault, which leads
to a reader with `Q`. -/
def Reads (P : Reader → Prop) (lines : List String) (Q : Reader → Prop) : Prop :=
  (∀ l ∈ lines, '\n' ∉ l.toList) ∧
  ∀ r, P r → ∃ r', lines.foldlM (fun r l => r.readLine l.toList) r = .ok r' ∧ Q r'

namespace Reads

variable {P Q R : Reader → Prop} {ls ms : List String}

theorem nil (h : ∀ r, P r → Q r) : Reads P [] Q := ⟨by simp, fun r hr => ⟨r, rfl, h r hr⟩⟩

theorem line {text : String} {x : Line} (means : Means text x)
    (step : ∀ r, P r → ∃ r', r.read x = .ok r' ∧ Q r') : Reads P [text] Q := by
  refine ⟨by simpa using means.unbroken, ?_⟩
  intro r hr
  obtain ⟨r', read, hq⟩ := step r hr
  refine ⟨r', ?_, hq⟩
  rw [List.foldlM_cons, readLine, if_pos means.significant, means.meaning, read]
  rfl

theorem seq (first : Reads P ls Q) (second : Reads Q ms R) : Reads P (ls ++ ms) R := by
  refine ⟨List.forall_mem_append.mpr ⟨first.1, second.1⟩, ?_⟩
  intro r hr
  obtain ⟨middle, run, hm⟩ := first.2 r hr
  obtain ⟨last, rest, hl⟩ := second.2 middle hm
  refine ⟨last, ?_, hl⟩
  rw [List.foldlM_append, run]
  exact rest

theorem weaken (reads : Reads P ls Q) (h : ∀ r, Q r → R r) : Reads P ls R := by
  refine ⟨reads.1, ?_⟩
  intro r hr
  obtain ⟨r', run, hq⟩ := reads.2 r hr
  exact ⟨r', run, h r' hq⟩

theorem each {α : Type} {f : α → List String} {Q : List α → Reader → Prop} {xs : List α}
    (step : ∀ before, ∀ x ∈ xs, Reads (Q before) (f x) (Q (before ++ [x]))) :
    Reads (Q []) (xs.flatMap f) (Q xs) := by
  have onward (before : List α) : Reads (Q before) (xs.flatMap f) (Q (before ++ xs)) := by
    induction xs generalizing before with
    | nil => exact nil fun r hr => by rwa [List.append_nil]
    | cons x xs ih =>
      have rest := ih (fun before y hy => step before y (List.mem_cons_of_mem x hy)) (before ++ [x])
      rw [List.append_assoc, List.singleton_append] at rest
      exact (step before x List.mem_cons_self).seq rest
  exact onward []

end Reads

end Reader

namespace Document

theorem parse_eq_ok_iff (document : String) (ts : List TestCase) :
    parse document = .ok ts ↔
      ∃ r, (document.toList.splitOn '\n').foldlM Reader.readLine {} = .ok r ∧ r.cases = ts := by
  simp only [← Reader.readLines_eq_ok_iff _ 1, parse, Line.numbered]
  generalize Reader.readLines {} _ = result
  cases result with
  | error e => simp [Except.map]
  | ok r => simp [Except.map]

theorem parse_join {ls : List String} {ts : List TestCase}
    (reads : Reader.Reads (· = {}) ls fun r => r.cases = ts) :
    parse (String.join (ls.map fun l => l ++ "\n")) = .ok ts := by
  obtain ⟨whole, contract⟩ := reads
  obtain ⟨r, run, read⟩ := contract {} rfl
  refine (parse_eq_ok_iff _ _).mpr ⟨r, ?_, read⟩
  rw [Text.splitOn_join whole, List.foldlM_append, List.foldlM_map, run]
  rfl

end Document

end RightLinear
