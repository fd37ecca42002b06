import RightLinear.Proofs.Provenance
import RightLinear.Session

namespace RightLinear

section Collections

open Std

theorem insert_eq_self {s : SymbolSet} {a : Symbol} (h : a ∈ s) : s.insert a = s := by
  apply ExtTreeSet.ext_mem
  intro b
  rw [ExtTreeSet.mem_insert]
  constructor
  · intro hb
    rcases hb with new | old
    · exact LawfulEqCmp.compare_eq_iff_eq.mp new ▸ h
    · exact old
  · exact Or.inr

theorem insertMany_toList {α : Type} [DecidableEq α] [Ord α] [TransOrd α] [LawfulEqOrd α]
    (s : ExtTreeSet α) : (∅ : ExtTreeSet α).insertMany s.toList = s := by
  apply ExtTreeSet.ext_mem
  intro a
  rw [ExtTreeSet.mem_insertMany_list, List.contains_iff_mem, ExtTreeSet.mem_toList]
  simp

/-- A set that holds nothing silent is kept as the alphabet of what is built from its symbols. -/
theorem readable_ofList_toList {s : SymbolSet} (h : Symbol.epsilon ∉ s) :
    SymbolSet.readable (.ofList s.toList) = s := by
  rw [ExtTreeSet.ofList_eq_insertMany_empty, insertMany_toList]
  apply ExtTreeSet.ext_mem
  intro a
  rw [SymbolSet.mem_readable]
  exact ⟨And.left, fun ha => ⟨ha, fun eq => h (eq ▸ ha)⟩⟩

theorem insertMany_toList_map {α β : Type} [DecidableEq α] [Ord α] [TransOrd α] [LawfulEqOrd α]
    (m : ExtTreeMap α β) : (∅ : ExtTreeMap α β).insertMany m.toList = m := by
  apply ExtTreeMap.ext_getElem?
  intro k
  cases found : m[k]? with
  | some v =>
    have listed : (k, v) ∈ m.toList := ExtTreeMap.mem_toList_iff_getElem?_eq_some.mpr found
    exact ExtTreeMap.getElem?_insertMany_list_of_mem ReflCmp.compare_self
      ExtTreeMap.distinct_keys_toList listed
  | none =>
    have unlisted : (m.toList.map Prod.fst).contains k = false := by
      rw [ExtTreeMap.map_fst_toList_eq_keys, ExtTreeMap.contains_keys,
        ExtTreeMap.contains_eq_isSome_getElem?, found, Option.isSome_none]
    rw [ExtTreeMap.getElem?_insertMany_list_of_contains_eq_false unlisted]
    simp

end Collections

namespace Nfa

variable {n : Nfa}

def changed (n : Nfa) (c : Change) : Nfa := ((Nfa.change c).run n).2

theorem foldl_state {names : List String} (distinct : (n.names ++ names).Nodup) :
    (names.map .state).foldl changed n = { n with names := n.names ++ names } := by
  induction names generalizing n with
  | nil => simp
  | cons name names ih =>
    have unused : name ∉ n.names := by
      intro old
      have apart := (List.nodup_append.mp distinct).2.2
      exact apart name old name List.mem_cons_self rfl
    have added : n.changed (.state name) = { n with names := n.names ++ [name] } := by
      show (n.addState name).2 = _
      rw [addState, if_neg unused]
    rw [List.map_cons, List.foldl_cons, added]
    refine (ih (by simpa using distinct)).trans ?_
    simp

theorem foldl_edge {es : List Edge}
    (known : ∀ e ∈ es, e.label ≠ Symbol.epsilon → e.label ∈ n.alphabet) :
    (es.map .edge).foldl changed n = { n with edges := n.edges.insertMany es } := by
  induction es generalizing n with
  | nil => simp
  | cons e es ih =>
    obtain ⟨first, rest⟩ := List.forall_mem_cons.mp known
    have alphabet : (if e.label.isEpsilon then n.alphabet else n.alphabet.insert e.label) =
        n.alphabet := by
      split
      · rfl
      · next readable => exact insert_eq_self (first (by simpa using readable))
    have added : n.changed (.edge e) = { n with edges := n.edges.insert e } := by
      show n.addEdge e = _
      rw [addEdge, alphabet]
    rw [List.map_cons, List.foldl_cons, added]
    refine (ih (n := { n with edges := n.edges.insert e }) rest).trans ?_
    rw [Std.ExtTreeSet.insertMany_cons]

theorem foldl_start (start : Option StateId) :
    (start.toList.map .start).foldl changed n = { n with start := start.or n.start } := by
  cases start <;> rfl

theorem foldl_accepting (qs : List StateId) :
    (qs.map .accepting).foldl changed n = { n with accepting := n.accepting.insertMany qs } := by
  induction qs generalizing n with
  | nil => simp
  | cons q qs ih =>
    have added : n.changed (.accepting q) = { n with accepting := n.accepting.insert q } := rfl
    rw [List.map_cons, List.foldl_cons, added]
    refine ih.trans ?_
    rw [Std.ExtTreeSet.insertMany_cons]

theorem exists_changes (h : n.WellFormed) :
    ∃ cs : List Change, cs.foldl changed (ofAlphabet (.ofList n.alphabet.toList)) = n := by
  have begun : ofAlphabet (.ofList n.alphabet.toList) = { alphabet := n.alphabet } := by
    rw [ofAlphabet, readable_ofList_toList h.epsilon_not_mem]
  have named : (n.names.map .state).foldl changed { alphabet := n.alphabet } =
      { names := n.names, alphabet := n.alphabet } := foldl_state h.nodup_names
  have known : ∀ e ∈ n.edges.toList, e.label ≠ Symbol.epsilon → e.label ∈ n.alphabet :=
    fun e he => h.label_mem e (Std.ExtTreeSet.mem_toList.mp he)
  have moved : (n.edges.toList.map .edge).foldl changed
      { names := n.names, alphabet := n.alphabet } =
        { names := n.names, alphabet := n.alphabet, edges := n.edges } := by
    refine (foldl_edge (n := { names := n.names, alphabet := n.alphabet }) known).trans ?_
    rw [insertMany_toList]
  have started : (n.start.toList.map .start).foldl changed
      { names := n.names, alphabet := n.alphabet, edges := n.edges } =
        { names := n.names, alphabet := n.alphabet, edges := n.edges, start := n.start } := by
    refine (foldl_start n.start).trans ?_
    rw [Option.or_none]
  refine ⟨n.names.map .state ++ n.edges.toList.map .edge ++ n.start.toList.map .start ++
    n.accepting.toList.map .accepting, ?_⟩
  rw [List.foldl_append, List.foldl_append, List.foldl_append, begun, named, moved, started]
  refine (foldl_accepting n.accepting.toList).trans ?_
  rw [insertMany_toList]

end Nfa

namespace Draft

variable {d : Draft}

def changed (d : Draft) (c : Change) : Draft := ((Draft.change c).run.run d).2

theorem foldl_state (k : Nat) :
    (List.replicate k Change.state).foldl changed d = { d with numStates := d.numStates + k } := by
  induction k generalizing d with
  | zero => rfl
  | succ k ih =>
    have added : d.changed .state = { d with numStates := d.numStates + 1 } := rfl
    rw [List.replicate_succ, List.foldl_cons, added]
    refine ih.trans ?_
    simp [Nat.add_assoc, Nat.add_comm 1 k]

theorem foldl_edge {es : List Edge} (readable : ∀ e ∈ es, e.label ≠ Symbol.epsilon) :
    (es.map .edge).foldl changed d = { d with
      alphabet := d.alphabet.insertMany (es.map Edge.label)
      table := d.table.insertMany (es.map fun e => ((e.source, e.label), e.target)) } := by
  induction es generalizing d with
  | nil => simp
  | cons e es ih =>
    obtain ⟨first, rest⟩ := List.forall_mem_cons.mp readable
    have added : d.changed (.edge e) = { d with
        alphabet := d.alphabet.insert e.label
        table := d.table.insert (e.source, e.label) e.target } := by
      rw [changed, Draft.change, insertEdge, if_neg (by simpa using first)]
      rfl
    rw [List.map_cons, List.foldl_cons, added]
    refine (ih rest).trans ?_
    rw [List.map_cons, List.map_cons, Std.ExtTreeSet.insertMany_cons, Std.ExtTreeMap.insertMany_cons]

theorem foldl_accepting (qs : List StateId) :
    (qs.map .accepting).foldl changed d = { d with accepting := d.accepting.insertMany qs } := by
  induction qs generalizing d with
  | nil => simp
  | cons q qs ih =>
    have added : d.changed (.accepting q) = { d with accepting := d.accepting.insert q } := rfl
    rw [List.map_cons, List.foldl_cons, added]
    refine ih.trans ?_
    rw [Std.ExtTreeSet.insertMany_cons]

/-- Where there is a dead state, every symbol of the alphabet is read in some state. -/
def AlphabetUsed (d : Draft) : Prop :=
  d.dead.isSome = true → ∀ a ∈ d.alphabet, ∃ q, (q, a) ∈ d.table

theorem alphabetUsed_addDead (d : Draft) : d.addDead.2.AlphabetUsed := by
  intro _ a ha
  refine ⟨d.numStates, Std.ExtTreeMap.mem_insertMany_list.mpr (Or.inr ?_)⟩
  rw [List.map_map, List.contains_iff_mem]
  exact List.mem_map.mpr ⟨a, Std.ExtTreeSet.mem_toList.mpr ha, rfl⟩

theorem AlphabetUsed.addEdge (h : d.AlphabetUsed) {m : Edge} {e : Draft}
    (added : d.addEdge m = .ok e) : e.AlphabetUsed := by
  obtain ⟨_, rfl⟩ := addEdge_eq_ok_iff.mp added
  intro dead a ha
  rcases Std.ExtTreeSet.mem_insert.mp ha with new | old
  · obtain rfl : m.label = a := Std.LawfulEqCmp.compare_eq_iff_eq.mp new
    exact ⟨m.source, Std.ExtTreeMap.mem_insert_self⟩
  · obtain ⟨q, move⟩ := h dead a old
    exact ⟨q, Std.ExtTreeMap.mem_insert.mpr (Or.inr move)⟩

theorem Built.alphabetUsed (h : d.Built) : d.AlphabetUsed := by
  induction h with
  | ofAlphabet s => exact fun dead => absurd dead Bool.false_ne_true
  | addState _ ih => exact ih
  | @addDead d _ _ => exact alphabetUsed_addDead d
  | setStart q _ ih => exact ih
  | addAccepting q _ ih => exact ih
  | addEdge _ added ih => exact ih.addEdge added

end Draft

namespace Dfa

variable {d : Dfa}

def AlphabetUsed (d : Dfa) : Prop :=
  d.dead.isSome = true → ∀ a ∈ d.alphabet, ∃ q t, d.next? q a = some t

theorem alphabetUsed_determinize (n : Nfa) : n.determinize.AlphabetUsed := by
  intro _ a ha
  have start : some n.initial ∈ n.subsetStates := n.enumerates_subsetStates.init_mem
  exact ⟨_, _, next?_ofStates n.alphabet n.subsetNext n.subsetAccepts _
    n.enumerates_subsetStates.nodup start ha⟩

theorem Built.alphabetUsed (h : d.Built) : d.AlphabetUsed := by
  induction h with
  | finish draft =>
    intro dead a ha
    obtain ⟨q, move⟩ := draft.alphabetUsed dead a ha
    exact ⟨q, Option.isSome_iff_exists.mp (Std.ExtTreeMap.mem_iff_isSome_getElem?.mp move)⟩
  | determinize _ => exact alphabetUsed_determinize _
  | complement _ ih => exact ih
  | product _ _ made _ _ =>
    obtain ⟨_, rfl⟩ := product_eq_ok_iff.mp made
    exact fun dead => absurd dead Bool.false_ne_true

def draft (d : Dfa) : Draft :=
  { numStates := d.numStates, start := some d.start, dead := d.dead, alphabet := d.alphabet,
    table := d.table, accepting := d.accepting }

theorem foldl_max_eq {qs : List Nat} {k : Nat} (h : ∀ q ∈ qs, q < k) :
    qs.foldl (fun n q => max n (q + 1)) k = k := by
  induction qs with
  | nil => rfl
  | cons q qs ih =>
    obtain ⟨first, rest⟩ := List.forall_mem_cons.mp h
    rw [List.foldl_cons, Nat.max_eq_left first]
    exact ih rest

theorem finish_draft (h : d.WellFormed) : d.draft.finish = d := by
  have below : ∀ q ∈ d.draft.mentioned, q < d.numStates := by
    intro q hq
    rcases List.mem_append.mp hq with marked | moving
    · rcases List.mem_cons.mp marked with start | accepting
      · exact start ▸ h.start_lt
      · exact h.accepting_lt q (Std.ExtTreeSet.mem_toList.mp accepting)
    · obtain ⟨row, listed, hq⟩ := List.mem_flatMap.mp moving
      obtain ⟨⟨p, a⟩, t⟩ := row
      have ends := h.edge_lt p a t (Std.ExtTreeMap.mem_toList_iff_getElem?_eq_some.mp listed)
      rcases List.mem_cons.mp hq with source | target
      · exact source ▸ ends.1
      · exact List.mem_singleton.mp target ▸ ends.2
  have size : d.draft.finish.numStates = d.numStates := foldl_max_eq below
  exact ext_next? size rfl rfl rfl rfl fun _ _ => rfl

theorem exists_changes_states (h : d.WellFormed) (used : d.AlphabetUsed) :
    ∃ (s : List Symbol) (cs : List Draft.Change) (known : SymbolSet),
      cs.foldl Draft.changed (.ofAlphabet (.ofList s)) =
        { numStates := d.numStates, dead := d.dead, alphabet := known } ∧
      ∀ a, a ∈ d.alphabet ↔ a ∈ known ∨ ∃ q t, d.next? q a = some t := by
  -- The states with the dead one among them, before there are any moves. The dead state is
  -- added to a draft that knows no symbols yet, where it gets no moves of its own.
  have read : ∀ a, (∃ q t, d.next? q a = some t) → a ∈ d.alphabet := by
    intro a move
    obtain ⟨q, t, move⟩ := move
    exact h.label_mem q a t move
  cases dead : d.dead with
  | none =>
    refine ⟨d.alphabet.toList, List.replicate d.numStates .state, d.alphabet, ?_, ?_⟩
    · rw [Draft.ofAlphabet, readable_ofList_toList h.epsilon_not_mem]
      refine (Draft.foldl_state d.numStates).trans ?_
      rw [Nat.zero_add]
    · intro a
      exact ⟨Or.inl, fun ha => ha.elim id (read a)⟩
  | some q =>
    have place : q < d.numStates := h.dead_lt q dead
    refine ⟨[], List.replicate q .state ++ .dead :: List.replicate (d.numStates - (q + 1)) .state,
      ∅, ?_, ?_⟩
    · have blank : Draft.ofAlphabet (.ofList ([] : List Symbol)) = {} := rfl
      have before : (List.replicate q Draft.Change.state).foldl Draft.changed {} =
          { numStates := q } := by
        refine (Draft.foldl_state q).trans ?_
        rw [Nat.zero_add]
      have sink : Draft.changed { numStates := q } .dead =
          { numStates := q + 1, dead := some q } := rfl
      rw [blank, List.foldl_append, List.foldl_cons, before, sink]
      refine (Draft.foldl_state _).trans ?_
      rw [Nat.add_sub_of_le place]
    · intro a
      constructor
      · intro ha
        exact Or.inr (used (Option.isSome_of_eq_some dead) a ha)
      · intro ha
        rcases ha with unknown | move
        · exact absurd unknown Std.ExtTreeSet.not_mem_empty
        · exact read a move

theorem mem_map_label (d : Dfa) (a : Symbol) :
    a ∈ d.edges.map Edge.label ↔ ∃ q t, d.next? q a = some t := by
  rw [List.mem_map]
  constructor
  · intro labels
    obtain ⟨⟨q, b, t⟩, listed, rfl⟩ := labels
    exact ⟨q, t, (mem_edges d _).mp listed⟩
  · intro move
    obtain ⟨q, t, move⟩ := move
    exact ⟨⟨q, a, t⟩, (mem_edges d _).mpr move, rfl⟩

/-- A well-formed automaton is what changes make of some alphabet, which its moves complete. -/
theorem exists_changes (h : d.WellFormed) (used : d.AlphabetUsed) :
    ∃ (s : List Symbol) (cs : List Draft.Change),
      (cs.foldl Draft.changed (.ofAlphabet (.ofList s))).finish = d := by
  obtain ⟨s, cs, known, states, spelled⟩ := exists_changes_states h used
  have alphabet : known.insertMany (d.edges.map Edge.label) = d.alphabet := by
    apply Std.ExtTreeSet.ext_mem
    intro a
    rw [Std.ExtTreeSet.mem_insertMany_list, List.contains_iff_mem, spelled a, mem_map_label]
  have table : (∅ : Std.ExtTreeMap Reading StateId).insertMany
      (d.edges.map fun e => ((e.source, e.label), e.target)) = d.table := by
    have rows : (d.edges.map fun e => ((e.source, e.label), e.target)) = d.table.toList := by
      rw [edges, List.map_map]
      exact List.map_id _
    rw [rows, insertMany_toList_map]
  have readable : ∀ e ∈ d.edges, e.label ≠ Symbol.epsilon := by
    intro e he silent
    have known : e.label ∈ d.alphabet := h.label_mem _ _ _ ((mem_edges d e).mp he)
    exact h.epsilon_not_mem (silent ▸ known)
  have moved : (d.edges.map .edge).foldl Draft.changed
      { numStates := d.numStates, dead := d.dead, alphabet := known } =
        { d.draft with start := none, accepting := ∅ } := by
    refine (Draft.foldl_edge readable).trans ?_
    rw [alphabet, table]
    rfl
  have decided : (d.accepting.toList.map .accepting).foldl Draft.changed
      { d.draft with accepting := ∅ } = d.draft := by
    refine (Draft.foldl_accepting d.accepting.toList).trans ?_
    rw [insertMany_toList]
    rfl
  refine ⟨s, cs ++ d.edges.map .edge ++ .start d.start :: d.accepting.toList.map .accepting, ?_⟩
  rw [List.foldl_append, List.foldl_append, states, moved, List.foldl_cons]
  exact (congrArg Draft.finish decided).trans (finish_draft h)

end Dfa

end RightLinear
