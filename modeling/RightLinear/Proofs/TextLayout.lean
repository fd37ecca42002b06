import Mathlib.Data.List.DropRight
import RightLinear.Text.Pieces

namespace RightLinear.Text

theorem isBlank_space : isBlank ' ' = true := by decide

theorem isBlank_newline : isBlank '\n' = true := by decide

theorem isToken_iff {cs : List Char} :
    isToken cs = true ↔ cs ≠ [] ∧ ∀ c ∈ cs, isBlank c = false := by
  simp [isToken]

theorem not_mem_of_isToken {cs : List Char} (h : isToken cs = true) {b : Char}
    (hb : isBlank b = true) : b ∉ cs := by
  intro mem
  have plain : isBlank b = false := (isToken_iff.mp h).2 b mem
  rw [hb] at plain
  exact Bool.noConfusion plain

theorem isToken_singleton {a : Char} : isToken [a] = true ↔ isBlank a = false := by
  simp [isToken]

theorem isToken_append {cs ds : List Char} (hc : isToken cs = true)
    (hd : ∀ c ∈ ds, isBlank c = false) : isToken (cs ++ ds) = true := by
  obtain ⟨nonempty, plain⟩ := isToken_iff.mp hc
  exact isToken_iff.mpr ⟨by simp [nonempty], List.forall_mem_append.mpr ⟨plain, hd⟩⟩

theorem words_of_isToken {cs : List Char} (h : isToken cs = true) : words cs = [cs] := by
  obtain ⟨nonempty, plain⟩ := isToken_iff.mp h
  rw [words, List.splitOnP_eq_singleton plain]
  simp [nonempty]

theorem words_intercalate {ts : List String} (h : ∀ t ∈ ts, isToken t.toList = true) :
    words (" ".intercalate ts).toList = ts.map String.toList := by
  induction ts with
  | nil => rfl
  | cons t ts ih =>
    obtain ⟨first, rest⟩ := List.forall_mem_cons.mp h
    cases ts with
    | nil => simpa using words_of_isToken first
    | cons s ts =>
      have line : (" ".intercalate (t :: s :: ts)).toList =
          t.toList ++ ' ' :: (" ".intercalate (s :: ts)).toList := by
        simp [String.intercalate_cons_cons]
      rw [line, words_append_cons isBlank_space, words_of_isToken first, ih rest]
      rfl

theorem intercalate_inj {ss ts : List String} (hs : ∀ s ∈ ss, isToken s.toList = true)
    (ht : ∀ t ∈ ts, isToken t.toList = true) (h : " ".intercalate ss = " ".intercalate ts) :
    ss = ts := by
  have same : ss.map String.toList = ts.map String.toList := by
    rw [← words_intercalate hs, ← words_intercalate ht, h]
  exact List.map_injective_iff.mpr (fun _ _ => String.toList_injective) same

theorem map_intercalate_inj {ss ts : List (List String)}
    (hs : ∀ l ∈ ss, ∀ s ∈ l, isToken s.toList = true)
    (ht : ∀ l ∈ ts, ∀ t ∈ l, isToken t.toList = true)
    (h : ss.map (fun l => " ".intercalate l) = ts.map fun l => " ".intercalate l) : ss = ts := by
  induction ss generalizing ts with
  | nil => simpa using h.symm
  | cons l ss ih =>
    cases ts with
    | nil => simp at h
    | cons m ts =>
      obtain ⟨hl, hs⟩ := List.forall_mem_cons.mp hs
      obtain ⟨hm, ht⟩ := List.forall_mem_cons.mp ht
      simp only [List.map_cons, List.cons.injEq] at h
      rw [intercalate_inj hl hm h.1, ih hs ht h.2]

theorem newline_not_mem_intercalate {ts : List String} (h : ∀ t ∈ ts, isToken t.toList = true) :
    '\n' ∉ (" ".intercalate ts).toList := by
  induction ts with
  | nil => simp
  | cons t ts ih =>
    obtain ⟨first, rest⟩ := List.forall_mem_cons.mp h
    have here : '\n' ∉ t.toList := not_mem_of_isToken first isBlank_newline
    cases ts with
    | nil => simpa using here
    | cons s ts => simpa [String.intercalate_cons_cons, here] using ih rest

theorem beq_eq_false_of_not_mem {a : Char} {cs : List Char} (h : a ∉ cs) :
    ∀ c ∈ cs, (c == a) = false := by
  intro c hc
  have other : c ≠ a := fun eq => h (eq ▸ hc)
  simpa using other

theorem splitOn_of_not_mem {a : Char} {cs : List Char} (h : a ∉ cs) : cs.splitOn a = [cs] :=
  List.splitOnP_eq_singleton (beq_eq_false_of_not_mem h)

theorem splitOn_join {ls : List String} (h : ∀ l ∈ ls, '\n' ∉ l.toList) :
    (String.join (ls.map fun l => l ++ "\n")).toList.splitOn '\n' =
      ls.map String.toList ++ [[]] := by
  induction ls with
  | nil => rfl
  | cons l ls ih =>
    obtain ⟨first, rest⟩ := List.forall_mem_cons.mp h
    have text : (String.join ((l :: ls).map fun l => l ++ "\n")).toList =
        l.toList ++ '\n' :: (String.join (ls.map fun l => l ++ "\n")).toList := by
      simp [String.toList_join]
    have cut : (l.toList ++ '\n' :: (String.join (ls.map fun l => l ++ "\n")).toList).splitOn '\n' =
        l.toList :: (String.join (ls.map fun l => l ++ "\n")).toList.splitOn '\n' :=
      List.splitOnP_append_cons_of_forall_mem (beq_eq_false_of_not_mem first) '\n' (by simp) _
    rw [text, cut, ih rest]
    rfl

theorem join_inj {ls ms : List String} (hl : ∀ l ∈ ls, '\n' ∉ l.toList)
    (hm : ∀ m ∈ ms, '\n' ∉ m.toList)
    (h : String.join (ls.map fun l => l ++ "\n") = String.join (ms.map fun m => m ++ "\n")) :
    ls = ms := by
  have same : ls.map String.toList ++ [[]] = ms.map String.toList ++ [[]] := by
    rw [← splitOn_join hl, ← splitOn_join hm, h]
  exact List.map_injective_iff.mpr (fun _ _ => String.toList_injective)
    (List.append_cancel_right same)

section Ends

theorem trimStart_eq_self_iff (cs : List Char) :
    trimStart cs = cs ↔ ∀ c ∈ cs.head?, isBlank c = false := by
  rw [trimStart, List.dropWhile_eq_self_iff]
  cases cs <;> simp

theorem trimEnd_eq_self_iff (cs : List Char) :
    trimEnd cs = cs ↔ ∀ c ∈ cs.getLast?, isBlank c = false := by
  rw [trimEnd, ← List.rdropWhile, List.rdropWhile_eq_self_iff]
  cases cs <;> simp [List.getLast?_eq_some_getLast]

theorem trim_eq_self_iff (cs : List Char) : trim cs = cs ↔
    (∀ c ∈ cs.head?, isBlank c = false) ∧ ∀ c ∈ cs.getLast?, isBlank c = false := by
  rw [← trimStart_eq_self_iff, ← trimEnd_eq_self_iff, trim]
  constructor
  · intro h
    have suffix : trimStart cs <:+ cs := List.dropWhile_suffix _
    have shorter : (trimEnd (trimStart cs)).length ≤ (trimStart cs).length :=
      (List.rdropWhile_prefix isBlank (trimStart cs)).length_le
    have start : trimStart cs = cs := suffix.eq_of_length_le (by rwa [h] at shorter)
    exact ⟨start, by rwa [start] at h⟩
  · intro h
    rw [h.1, h.2]

theorem trim_append_space (cs : List Char) : trim (cs ++ [' ']) = trim cs :=
  trim_append_right (List.forall_mem_singleton.mpr isBlank_space) cs

theorem trim_space_cons (cs : List Char) : trim (' ' :: cs) = trim cs :=
  trim_append_left (List.forall_mem_singleton.mpr isBlank_space) cs

theorem trim_singleton {a : Char} (h : isBlank a = false) : trim [a] = [a] :=
  (trim_eq_self_iff [a]).mpr ⟨by simpa using h, by simpa using h⟩

theorem trim_isInfix (cs : List Char) : trim cs <:+: cs := by
  have start : trim cs <+: trimStart cs := List.rdropWhile_prefix isBlank (trimStart cs)
  exact start.isInfix.trans (List.dropWhile_suffix isBlank).isInfix

theorem trim_trim (cs : List Char) : trim (trim cs) = trim cs := by
  have start : trimStart (trimStart cs) = trimStart cs := List.dropWhile_idempotent isBlank cs
  have last : trimEnd (trim cs) = trim cs := List.rdropWhile_idempotent isBlank (trimStart cs)
  refine (trim_eq_self_iff _).mpr ⟨?_, (trimEnd_eq_self_iff _).mp last⟩
  obtain ⟨rest, eq⟩ : trim cs <+: trimStart cs := List.rdropWhile_prefix isBlank (trimStart cs)
  intro c hc
  apply (trimStart_eq_self_iff (trimStart cs)).mp start
  rw [← eq, List.head?_append, hc]
  rfl

theorem head?_trim_cons {c : Char} (plain : isBlank c = false) (cs : List Char) :
    (trim (c :: cs)).head? = some c := by
  have start : trimStart (c :: cs) = c :: cs :=
    (trimStart_eq_self_iff _).mpr (by simpa using plain)
  have whole : trim (c :: cs) = (c :: cs).rdropWhile isBlank := by
    rw [trim, start, trimEnd, List.rdropWhile]
  obtain ⟨rest, eq⟩ := List.rdropWhile_prefix isBlank (c :: cs)
  rw [← whole] at eq
  cases kept : trim (c :: cs) with
  | nil =>
    rw [whole] at kept
    have blank : isBlank c = true := List.rdropWhile_eq_nil_iff.mp kept c List.mem_cons_self
    rw [plain] at blank
    cases blank
  | cons x xs =>
    rw [kept] at eq
    rw [(List.cons.inj eq).1, List.head?_cons]

end Ends

section Cuts

theorem of_mem_splitOnP {p : Char → Bool} {cs piece : List Char} (h : piece ∈ cs.splitOnP p)
    {c : Char} (hc : c ∈ piece) : c ∈ cs ∧ p c = false := by
  induction cs generalizing piece with
  | nil =>
    obtain rfl := List.mem_singleton.mp h
    exact absurd hc List.not_mem_nil
  | cons b cs ih =>
    have later {piece : List Char} (h : piece ∈ cs.splitOnP p) (hc : c ∈ piece) :
        c ∈ b :: cs ∧ p c = false :=
      ⟨List.mem_cons_of_mem b (ih h hc).1, (ih h hc).2⟩
    rw [List.splitOnP_cons_eq_if_modifyHead] at h
    split at h
    · rcases List.mem_cons.mp h with rfl | h
      · exact absurd hc List.not_mem_nil
      · exact later h hc
    · next plain =>
      cases pieces : cs.splitOnP p with
      | nil => simp [pieces] at h
      | cons first rest =>
        -- A character that is no separator joins the first piece of the rest.
        rw [pieces, List.modifyHead_cons] at h
        rw [pieces] at later
        rcases List.mem_cons.mp h with rfl | h
        · rcases List.mem_cons.mp hc with rfl | hc
          · exact ⟨List.mem_cons_self, by simpa using plain⟩
          · exact later List.mem_cons_self hc
        · exact later (List.mem_cons_of_mem first h) hc

theorem not_mem_of_mem_splitOn {a : Char} {cs piece : List Char} (h : piece ∈ cs.splitOn a) :
    a ∉ piece := by
  intro ha
  simpa using (of_mem_splitOnP h ha).2

theorem isBlank_of_mem_words {cs w : List Char} (h : w ∈ words cs) {c : Char} (hc : c ∈ w) :
    isBlank c = false :=
  (of_mem_splitOnP (List.mem_of_mem_filter h) hc).2

end Cuts

section Arrows

theorem splitArrow?_eq_none_iff (cs : List Char) :
    splitArrow? cs = none ↔ ¬ ['-', '>'] <:+: cs := by
  fun_induction splitArrow? cs with
  | case1 cs =>
    have arrow : ['-', '>'] <:+: '-' :: '>' :: cs := ⟨[], cs, rfl⟩
    simp [arrow]
  | case2 c cs other ih =>
    have here : ¬ ['-', '>'] <+: c :: cs := by
      intro start
      obtain ⟨rest, eq⟩ := start
      simp only [List.cons_append, List.nil_append, List.cons.injEq] at eq
      exact other rest eq.1.symm eq.2.symm
    rw [Option.map_eq_none_iff, ih, List.infix_cons_iff, not_or]
    exact ⟨fun later => ⟨here, later⟩, And.right⟩
  | case3 => simp

/-- The arrow of a rule is found whatever its left-hand side is, be it a part of an arrow. -/
theorem splitArrow?_rule (a : Char) (cs : List Char) :
    splitArrow? (a :: ' ' :: '-' :: '>' :: cs) = some ([a, ' '], cs) := by
  simp [splitArrow?]

end Arrows

end RightLinear.Text
