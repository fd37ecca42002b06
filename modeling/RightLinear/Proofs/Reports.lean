import RightLinear.Batch.Report
import RightLinear.Proofs.CanonicalText

namespace RightLinear

theorem append_cons_inj {α : Type} {a : α} {xs ys zs ws : List α} (hx : a ∉ xs) (hy : a ∉ ys)
    (h : xs ++ a :: zs = ys ++ a :: ws) : xs = ys ∧ zs = ws := by
  induction xs generalizing ys with
  | nil =>
    cases ys with
    | nil => exact ⟨rfl, (List.cons.inj h).2⟩
    | cons y ys => exact absurd ((List.cons.inj h).1 ▸ List.mem_cons_self) hy
  | cons x xs ih =>
    obtain ⟨first, hx⟩ := not_or.mp (fun ha => hx (List.mem_cons.mpr ha))
    cases ys with
    | nil => exact absurd (List.cons.inj h).1.symm first
    | cons y ys =>
      obtain ⟨rfl, rest⟩ := List.cons.inj h
      obtain ⟨rfl, tails⟩ := ih hx (fun ha => hy (List.mem_cons_of_mem x ha)) rest
      exact ⟨rfl, tails⟩

namespace Dfa

variable {c : Config} {d e : Dfa}

section SameLines

theorem numStates_dead_of_names (valid : c.fault? = none) (wd : d.WellFormed) (we : e.WellFormed)
    (h : d.writtenStates.map (d.stateName c) = e.writtenStates.map (e.stateName c)) :
    d.numStates = e.numStates ∧ d.dead = e.dead := by
  have shown (d : Dfa) : d.stateName c = c.nameOf ∘ d.shown := funext (d.stateName_eq c)
  rw [shown d, shown e, ← List.map_map, ← List.map_map] at h
  have same := List.map_injective_iff.mpr (Config.nameOf_injective valid) h
  exact numStates_dead_of_map_shown wd we same

theorem alphabet_eq_of_toString (h : d.alphabet.toList.map (fun a => a.toString) =
    e.alphabet.toList.map fun a => a.toString) : d.alphabet = e.alphabet := by
  have symbols := List.map_injective_iff.mpr toString_symbol_injective h
  apply Std.ExtTreeSet.ext_mem
  intro a
  rw [← Std.ExtTreeSet.mem_toList, symbols, Std.ExtTreeSet.mem_toList]

theorem next?_eq_of_writtenEdges (wd : d.WellFormed) (we : e.WellFormed)
    (h : d.writtenEdges = e.writtenEdges) (q : StateId) (a : Symbol) :
    d.next? q a = e.next? q a := by
  apply Option.ext
  intro t
  have here : ⟨q, a, t⟩ ∈ d.writtenEdges ↔ d.next? q a = some t := mem_writtenEdges wd
  have there : ⟨q, a, t⟩ ∈ e.writtenEdges ↔ e.next? q a = some t := mem_writtenEdges we
  rw [← here, ← there, h]

theorem eq_of_lines_eq (valid : c.fault? = none) (wd : d.WellFormed) (we : e.WellFormed)
    (ld : d.Legible) (le : e.Legible) (h : d.lines c = e.lines c) : d = e := by
  -- The number of states and the dead one are read off first, since the names of the other
  -- states depend on them.
  have text : d.text c = e.text c := by rw [Dfa.text, Dfa.text, h]
  obtain ⟨states, alphabet, start, finals, moves⟩ := parts_of_text valid wd we ld le text
  obtain ⟨count, dead⟩ := numStates_dead_of_names valid wd we states
  have names : e.stateName c = d.stateName c := stateName_congr dead.symm
  have words : e.moveWords c = d.moveWords c := by
    funext m
    simp only [moveWords, names]
  rw [names] at start finals
  rw [words] at moves
  have named : Function.Injective (d.stateName c) := stateName_injective valid d
  have edges : d.writtenEdges = e.writtenEdges :=
    List.map_injective_iff.mpr (moveWords_injective valid d) moves
  exact ext_next? count (named start) dead (alphabet_eq_of_toString alphabet)
    (accepting_eq wd we (List.map_injective_iff.mpr named finals))
    (next?_eq_of_writtenEdges wd we edges)

end SameLines

theorem intercalate_moveWords_ne_empty (d : Dfa) (c : Config) (m : Edge) :
    " ".intercalate (d.moveWords c m) ≠ "" := by
  simp [moveWords, String.intercalate_cons_cons]

theorem lines_append_inj {xs ys : List String} (h : d.lines c ++ xs = e.lines c ++ ys) :
    d.lines c = e.lines c ∧ xs = ys := by
  have moves (d : Dfa) :
      "" ∉ (d.writtenEdges.map (d.moveWords c)).map fun ws => " ".intercalate ws := by
    intro empty
    obtain ⟨_, hw, eq⟩ := List.mem_map.mp empty
    obtain ⟨m, _, rfl⟩ := List.mem_map.mp hw
    exact d.intercalate_moveWords_ne_empty c m eq
  rw [lines_eq, lines_eq] at h ⊢
  simp only [List.append_assoc, List.cons_append, List.nil_append, List.cons.injEq, true_and] at h ⊢
  obtain ⟨states, alphabet, start, finals, rest⟩ := h
  obtain ⟨same, rest⟩ := append_cons_inj (moves d) (moves e) rest
  simp only [states, alphabet, start, finals, same, rest, and_self]

end Dfa

namespace Batch

/-- Two results are the same automaton, or failures with the same wording. -/
inductive SameResult : Except Error Outcome → Except Error Outcome → Prop
  | automaton {o p : Outcome} : o.dfa = p.dfa → SameResult (.ok o) (.ok p)
  | failure {e f : Error} : e.message = f.message → SameResult (.error e) (.error f)

/-- A result whose lines are not broken by what is written in them. -/
inductive Presentable : Except Error Outcome → Prop
  | automaton {o : Outcome} : o.dfa.WellFormed → o.dfa.Legible → Presentable (.ok o)
  | failure {e : Error} : '\n' ∉ e.message.toList → Presentable (.error e)

def blockLines (c : Config) : Except Error Outcome → List String
  | .ok o => o.dfa.lines c
  | .error e => ["# Error", e.message, ""]

def reportLines (c : Config) (k : Nat) (results : List (Except Error Outcome)) : List String :=
  (results.zipIdx k).flatMap fun (r, n) => n.repr :: blockLines c r

section Lines

variable {c : Config} {r s : Except Error Outcome} {rs ss : List (Except Error Outcome)} {k : Nat}

theorem blockText_eq (c : Config) (r : Except Error Outcome) :
    blockText c r = String.join ((blockLines c r).map fun l => l ++ "\n") := by
  cases r with
  | ok o => rfl
  | error e =>
    apply String.toList_injective
    simp [blockText, blockLines]

theorem report_eq (c : Config) (rs : List (Except Error Outcome)) :
    report c rs = String.join ((reportLines c 1 rs).map fun l => l ++ "\n") := by
  apply String.toList_injective
  simp [report, reportLines, blockText_eq, String.toList_join, List.flatMap_map, List.map_flatMap,
    List.flatMap_assoc]

theorem Presentable.newline_not_mem_blockLines (hr : Presentable r) (valid : c.fault? = none) :
    ∀ l ∈ blockLines c r, '\n' ∉ l.toList := by
  cases hr with
  | automaton formed legible => exact legible.newline_not_mem_lines formed valid
  | failure unbroken =>
    simp only [blockLines, List.forall_mem_cons]
    exact ⟨by decide, unbroken, by decide, by simp⟩

theorem newline_not_mem_reportLines (valid : c.fault? = none) (hrs : ∀ r ∈ rs, Presentable r)
    (k : Nat) : ∀ l ∈ reportLines c k rs, '\n' ∉ l.toList := by
  intro l hl
  obtain ⟨⟨r, n⟩, listed, hl⟩ := List.mem_flatMap.mp hl
  have hr : Presentable r := hrs r (List.fst_mem_of_mem_zipIdx listed)
  rcases List.mem_cons.mp hl with rfl | hl
  · intro hn
    have digit := Config.isDigit_of_mem_repr hn
    revert digit
    decide
  · exact hr.newline_not_mem_blockLines valid l hl

/-- Blocks are told apart by their first line, and a failure has three lines always. -/
theorem blockLines_append_inj {xs ys : List String}
    (h : blockLines c r ++ xs = blockLines c s ++ ys) :
    blockLines c r = blockLines c s ∧ xs = ys := by
  cases r with
  | ok o =>
    cases s with
    | ok p => exact Dfa.lines_append_inj h
    | error f => simp [blockLines, Dfa.lines_eq] at h
  | error e =>
    cases s with
    | ok p => simp [blockLines, Dfa.lines_eq] at h
    | error f => simpa [blockLines] using h

theorem sameResult_of_blockLines (valid : c.fault? = none) (hr : Presentable r)
    (hs : Presentable s) (h : blockLines c r = blockLines c s) : SameResult r s := by
  cases hr with
  | automaton formed legible =>
    cases hs with
    | automaton formed' legible' =>
      exact .automaton (Dfa.eq_of_lines_eq valid formed formed' legible legible' h)
    | failure => simp [blockLines, Dfa.lines_eq] at h
  | failure =>
    cases hs with
    | automaton => simp [blockLines, Dfa.lines_eq] at h
    | failure => exact .failure (by simpa [blockLines] using h)

theorem reportLines_cons (c : Config) (k : Nat) (r : Except Error Outcome)
    (rs : List (Except Error Outcome)) :
    reportLines c k (r :: rs) = k.repr :: (blockLines c r ++ reportLines c (k + 1) rs) := by
  simp [reportLines]

theorem forall₂_sameResult_of_reportLines (valid : c.fault? = none)
    (hrs : ∀ r ∈ rs, Presentable r) (hss : ∀ s ∈ ss, Presentable s)
    (h : reportLines c k rs = reportLines c k ss) : List.Forall₂ SameResult rs ss := by
  induction rs generalizing ss k with
  | nil =>
    cases ss with
    | nil => exact .nil
    | cons s ss => simp [reportLines] at h
  | cons r rs ih =>
    cases ss with
    | nil => simp [reportLines] at h
    | cons s ss =>
      obtain ⟨hr, hrs⟩ := List.forall_mem_cons.mp hrs
      obtain ⟨hs, hss⟩ := List.forall_mem_cons.mp hss
      rw [reportLines_cons, reportLines_cons] at h
      -- Both blocks have the number `k`, so they begin at the same line.
      obtain ⟨block, rest⟩ := blockLines_append_inj (List.cons.inj h).2
      exact .cons (sameResult_of_blockLines valid hr hs block) (ih hrs hss rest)

/-- A report tells the results that it was made from. -/
theorem forall₂_sameResult_of_report (valid : c.fault? = none) (hrs : ∀ r ∈ rs, Presentable r)
    (hss : ∀ s ∈ ss, Presentable s) (h : report c rs = report c ss) :
    List.Forall₂ SameResult rs ss := by
  rw [report_eq, report_eq] at h
  have lines := Text.join_inj (newline_not_mem_reportLines valid hrs 1)
    (newline_not_mem_reportLines valid hss 1) h
  exact forall₂_sameResult_of_reportLines valid hrs hss lines

end Lines

end Batch

end RightLinear
