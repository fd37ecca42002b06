import Mathlib.Data.List.Perm.Basic
import RightLinear.Proofs.Provenance
import RightLinear.Proofs.StateNames

namespace RightLinear.Dfa

variable {c : Config} {d e : Dfa}

section WrittenStates

theorem mem_writtenStates (h : d.WellFormed) {q : StateId} :
    q ∈ d.writtenStates ↔ q < d.numStates := by
  simp only [writtenStates, states, List.mem_append, List.mem_filter, List.mem_range,
    decide_eq_true_eq, Option.mem_toList]
  by_cases dead : d.dead = some q
  · have below := h.dead_lt q dead
    simp [dead, below]
  · simp [dead]

theorem nodup_writtenStates (d : Dfa) : d.writtenStates.Nodup := by
  rw [writtenStates, List.nodup_append]
  refine ⟨List.nodup_range.filter _, ?_, ?_⟩
  · cases d.dead <;> simp
  · intro p hp q hq eq
    have dead : d.dead = some q := by simpa using hq
    have live : d.dead ≠ some p := by simpa using (List.mem_filter.mp hp).2
    exact live (eq ▸ dead)

theorem length_writtenStates (h : d.WellFormed) : d.writtenStates.length = d.numStates := by
  have same : d.writtenStates.Perm (List.range d.numStates) :=
    (List.perm_ext_iff_of_nodup d.nodup_writtenStates List.nodup_range).mpr fun q => by
      rw [mem_writtenStates h, List.mem_range]
  rw [same.length_eq, List.length_range]

theorem some_mem_map_shown_iff (h : d.WellFormed) {q : StateId} :
    some q ∈ d.writtenStates.map d.shown ↔ q < d.numStates ∧ d.dead ≠ some q := by
  rw [List.mem_map]
  constructor
  · intro listed
    obtain ⟨p, hp, eq⟩ := listed
    by_cases dead : d.dead = some p
    · rw [shown, if_pos dead] at eq
      cases eq
    · rw [shown, if_neg dead] at eq
      obtain rfl := Option.some.inj eq
      exact ⟨(mem_writtenStates h).mp hp, dead⟩
  · intro live
    exact ⟨q, (mem_writtenStates h).mpr live.1, if_neg live.2⟩

theorem numStates_dead_of_map_shown (hd : d.WellFormed) (he : e.WellFormed)
    (h : d.writtenStates.map d.shown = e.writtenStates.map e.shown) :
    d.numStates = e.numStates ∧ d.dead = e.dead := by
  have count : d.numStates = e.numStates := by
    have same := congrArg List.length h
    rwa [List.length_map, List.length_map, length_writtenStates hd, length_writtenStates he] at same
  have live (q : StateId) (below : q < d.numStates) : d.dead ≠ some q ↔ e.dead ≠ some q := by
    have same : some q ∈ d.writtenStates.map d.shown ↔ some q ∈ e.writtenStates.map e.shown := by
      rw [h]
    rw [some_mem_map_shown_iff hd, some_mem_map_shown_iff he, ← count] at same
    exact ⟨fun hq => (same.mp ⟨below, hq⟩).2, fun hq => (same.mpr ⟨below, hq⟩).2⟩
  refine ⟨count, Option.ext fun q => ?_⟩
  constructor
  · intro dead
    exact not_not.mp fun other => (live q (hd.dead_lt q dead)).mpr other dead
  · intro dead
    exact not_not.mp fun other => (live q (count ▸ he.dead_lt q dead)).mp other dead

theorem mem_writtenEdges (h : d.WellFormed) {m : Edge} :
    m ∈ d.writtenEdges ↔ d.next? m.source m.label = some m.target := by
  simp only [writtenEdges, List.mem_flatMap, List.mem_filterMap, Option.map_eq_some_iff,
    mem_writtenStates h, Std.ExtTreeSet.mem_toList]
  constructor
  · intro listed
    obtain ⟨q, _, a, _, t, move, rfl⟩ := listed
    exact move
  · intro move
    exact ⟨m.source, (h.edge_lt _ _ _ move).1, m.label, h.label_mem _ _ _ move, m.target, move, rfl⟩

end WrittenStates

section Lines

def moveWords (d : Dfa) (c : Config) (m : Edge) : List String :=
  [d.stateName c m.source, m.label.toString, d.stateName c m.target]

theorem lines_eq (d : Dfa) (c : Config) : d.lines c =
    ["# States", " ".intercalate (d.writtenStates.map (d.stateName c)),
     "# Alphabet", " ".intercalate (d.alphabet.toList.map fun a => a.toString),
     "# Start State", d.stateName c d.start,
     "# Final States", " ".intercalate ((d.writtenStates.filter d.isAccepting).map (d.stateName c)),
     "# Transitions"]
    ++ (d.writtenEdges.map (d.moveWords c)).map (fun ws => " ".intercalate ws) ++ [""] := by
  rw [lines, List.map_map]
  rfl

theorem isToken_map_stateName (valid : c.fault? = none) (d : Dfa) (qs : List StateId) :
    ∀ t ∈ qs.map (d.stateName c), Text.isToken t.toList = true := by
  intro t ht
  obtain ⟨q, _, rfl⟩ := List.mem_map.mp ht
  exact isToken_stateName valid d q

/-- No symbol of the alphabet is blank. -/
def Legible (d : Dfa) : Prop := ∀ a ∈ d.alphabet, Text.isBlank a = false

theorem isToken_symbol {a : Symbol} (h : Text.isBlank a = false) :
    Text.isToken a.toString.toList = true := by
  simpa [Char.toString, Text.isToken_singleton] using h

theorem Legible.isToken_alphabet (h : d.Legible) :
    ∀ t ∈ d.alphabet.toList.map (fun a => a.toString), Text.isToken t.toList = true := by
  intro t ht
  obtain ⟨a, ha, rfl⟩ := List.mem_map.mp ht
  exact isToken_symbol (h a (Std.ExtTreeSet.mem_toList.mp ha))

theorem Legible.isToken_moveWords (h : d.Legible) (wd : d.WellFormed) (valid : c.fault? = none) :
    ∀ ws ∈ d.writtenEdges.map (d.moveWords c), ∀ t ∈ ws, Text.isToken t.toList = true := by
  intro ws hw
  obtain ⟨m, hm, rfl⟩ := List.mem_map.mp hw
  have label : m.label ∈ d.alphabet := wd.label_mem _ _ _ ((mem_writtenEdges wd).mp hm)
  simp only [moveWords, List.forall_mem_cons]
  exact ⟨isToken_stateName valid d _, isToken_symbol (h _ label), isToken_stateName valid d _,
    by simp⟩

theorem Legible.newline_not_mem_lines (h : d.Legible) (wd : d.WellFormed)
    (valid : c.fault? = none) : ∀ l ∈ d.lines c, '\n' ∉ l.toList := by
  have moves : ∀ l ∈ (d.writtenEdges.map (d.moveWords c)).map (fun ws => " ".intercalate ws),
      '\n' ∉ l.toList := by
    intro l hl
    obtain ⟨ws, hw, rfl⟩ := List.mem_map.mp hl
    exact Text.newline_not_mem_intercalate (h.isToken_moveWords wd valid ws hw)
  have start : '\n' ∉ (d.stateName c d.start).toList :=
    Text.not_mem_of_isToken (isToken_stateName valid d d.start) Text.isBlank_newline
  rw [lines_eq]
  simp only [List.forall_mem_append, List.forall_mem_cons]
  exact ⟨⟨⟨by decide, Text.newline_not_mem_intercalate (isToken_map_stateName valid d _),
    by decide, Text.newline_not_mem_intercalate h.isToken_alphabet, by decide, start, by decide,
    Text.newline_not_mem_intercalate (isToken_map_stateName valid d _), by decide, by simp⟩, moves⟩,
    by decide, by simp⟩

end Lines

/-- What the lines of an automaton are written from. -/
theorem parts_of_text (valid : c.fault? = none) (wd : d.WellFormed) (we : e.WellFormed)
    (ld : d.Legible) (le : e.Legible) (h : d.text c = e.text c) :
    d.writtenStates.map (d.stateName c) = e.writtenStates.map (e.stateName c) ∧
    d.alphabet.toList.map (fun a => a.toString) = e.alphabet.toList.map (fun a => a.toString) ∧
    d.stateName c d.start = e.stateName c e.start ∧
    (d.writtenStates.filter d.isAccepting).map (d.stateName c) =
      (e.writtenStates.filter e.isAccepting).map (e.stateName c) ∧
    d.writtenEdges.map (d.moveWords c) = e.writtenEdges.map (e.moveWords c) := by
  have lines : d.lines c = e.lines c :=
    Text.join_inj (ld.newline_not_mem_lines wd valid) (le.newline_not_mem_lines we valid) h
  rw [lines_eq, lines_eq] at lines
  have content := List.append_cancel_right lines
  simp only [List.cons_append, List.nil_append, List.cons.injEq, true_and] at content
  obtain ⟨states, alphabet, start, finals, moves⟩ := content
  have names (d : Dfa) (qs : List StateId) := isToken_map_stateName valid d qs
  exact ⟨Text.intercalate_inj (names _ _) (names _ _) states,
    Text.intercalate_inj ld.isToken_alphabet le.isToken_alphabet alphabet, start,
    Text.intercalate_inj (names _ _) (names _ _) finals,
    Text.map_intercalate_inj (ld.isToken_moveWords wd valid) (le.isToken_moveWords we valid) moves⟩

theorem toString_symbol_injective : Function.Injective fun a : Symbol => a.toString := by
  intro a b h
  have same : a.toString.toList = b.toString.toList := congrArg String.toList h
  simpa [Char.toString] using same

theorem moveWords_injective (valid : c.fault? = none) (d : Dfa) :
    Function.Injective (d.moveWords c) := by
  intro m m' h
  obtain ⟨q, a, t⟩ := m
  obtain ⟨q', a', t'⟩ := m'
  simp only [moveWords, List.cons.injEq, and_true] at h
  obtain ⟨source, label, target⟩ := h
  rw [stateName_injective valid d source, toString_symbol_injective label,
    stateName_injective valid d target]

theorem stateName_congr (h : d.dead = e.dead) : d.stateName c = e.stateName c := by
  funext q
  rw [stateName, stateName, h]

theorem accepting_eq (wd : d.WellFormed) (we : e.WellFormed)
    (h : d.writtenStates.filter d.isAccepting = e.writtenStates.filter e.isAccepting) :
    d.accepting = e.accepting := by
  have listed {d : Dfa} (wd : d.WellFormed) (q : StateId) :
      q ∈ d.writtenStates.filter d.isAccepting ↔ q ∈ d.accepting := by
    rw [List.mem_filter, mem_writtenStates wd, isAccepting, Std.ExtTreeSet.contains_iff_mem]
    exact ⟨And.right, fun hq => ⟨wd.accepting_lt q hq, hq⟩⟩
  apply Std.ExtTreeSet.ext_mem
  intro q
  rw [← listed wd, ← listed we, h]

/-- Under a configuration without fault, automata with one text are one automaton: the text holds
the states with the dead one, the alphabet, the start, all moves and the accepting states. -/
theorem text_injective (c : Config) (valid : c.fault? = none) (d e : Dfa) (bd : d.Built)
    (be : e.Built) (ld : d.Legible) (le : e.Legible) (h : d.text c = e.text c) : d = e := by
  have wd : d.WellFormed := bd.wellFormed
  have we : e.WellFormed := be.wellFormed
  obtain ⟨states, alphabet, start, finals, moves⟩ := parts_of_text valid wd we ld le h
  have shown : d.writtenStates.map d.shown = e.writtenStates.map e.shown := by
    apply List.map_injective_iff.mpr (Config.nameOf_injective valid)
    simpa only [List.map_map, Function.comp_def, ← stateName_eq] using states
  obtain ⟨count, dead⟩ := numStates_dead_of_map_shown wd we shown
  -- From here on both automata name their states alike.
  have names : e.stateName c = d.stateName c := stateName_congr dead.symm
  have words : e.moveWords c = d.moveWords c := by
    funext m
    rw [moveWords, moveWords, names]
  rw [names] at start finals
  rw [words] at moves
  have named : Function.Injective (d.stateName c) := stateName_injective valid d
  have symbols : d.alphabet.toList = e.alphabet.toList :=
    List.map_injective_iff.mpr toString_symbol_injective alphabet
  have same : d.alphabet = e.alphabet := by
    apply Std.ExtTreeSet.ext_mem
    intro a
    rw [← Std.ExtTreeSet.mem_toList, symbols, Std.ExtTreeSet.mem_toList]
  have accepting : d.accepting = e.accepting :=
    accepting_eq wd we (List.map_injective_iff.mpr named finals)
  have edges : d.writtenEdges = e.writtenEdges :=
    List.map_injective_iff.mpr (moveWords_injective valid d) moves
  apply ext_next? count (named start) dead same accepting
  intro q a
  apply Option.ext
  intro t
  have here : ⟨q, a, t⟩ ∈ d.writtenEdges ↔ d.next? q a = some t := mem_writtenEdges wd
  have there : ⟨q, a, t⟩ ∈ e.writtenEdges ↔ e.next? q a = some t := mem_writtenEdges we
  rw [← here, ← there, edges]

/-- A dead state between the states 0 and 2, the last of which accepts. -/
def middleDeadDraft : Draft :=
  ((Draft.ofAlphabet (.ofList ['a', '#'])).addState.2.addDead.2).addAccepting 2

/-- The text does not tell whether state 2 was added or only mentioned, nor does the automaton. -/
theorem text_injective_middleDead :
    Config.fault? { deadStateName := "s1x", statePrefix := "s1" } = none ∧
    middleDeadDraft ≠ middleDeadDraft.addState.2 ∧
    middleDeadDraft.finish.text { deadStateName := "s1x", statePrefix := "s1" } =
      middleDeadDraft.addState.2.finish.text { deadStateName := "s1x", statePrefix := "s1" } ∧
    middleDeadDraft.finish = middleDeadDraft.addState.2.finish := by
  have built : middleDeadDraft.Built := .addAccepting 2 (.addDead (.addState (.ofAlphabet _)))
  have legible {d : Dfa} (h : d.alphabet = .ofList ['a', '#']) : d.Legible := by
    intro a ha
    obtain rfl | rfl : a = 'a' ∨ a = '#' := by simpa [h] using ha
    · decide
    · decide
  have valid : Config.fault? { deadStateName := "s1x", statePrefix := "s1" } = none := by
    decide +kernel
  have text : middleDeadDraft.finish.text { deadStateName := "s1x", statePrefix := "s1" } =
      middleDeadDraft.addState.2.finish.text { deadStateName := "s1x", statePrefix := "s1" } := by
    decide +kernel
  exact ⟨valid, by decide +kernel, text, text_injective _ valid _ _ (.finish built)
    (.finish (.addState built)) (legible (by decide +kernel)) (legible (by decide +kernel)) text⟩

end RightLinear.Dfa
