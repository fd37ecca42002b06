import RightLinear.Dfa.Draft
import RightLinear.Proofs.GrammarAutomaton
import RightLinear.Proofs.PairAutomaton
import RightLinear.Proofs.SubsetConstruction

namespace RightLinear

namespace Nfa

inductive Built : Nfa → Prop
  | ofAlphabet (s : SymbolSet) : Built (Nfa.ofAlphabet s)
  | addState {n : Nfa} (name : String) : Built n → Built (n.addState name).2
  | addEdge {n : Nfa} (e : Edge) : Built n → Built (n.addEdge e)
  | setStart {n : Nfa} (q : StateId) : Built n → Built (n.setStart q)
  | addAccepting {n : Nfa} (q : StateId) : Built n → Built (n.addAccepting q)
  | ofGrammar {n : Nfa} {g : Grammar} {c : Config} : g.toNfa c = .ok n → Built n

theorem Built.wellFormed {n : Nfa} (h : n.Built) : n.WellFormed := by
  induction h with
  | ofAlphabet s => exact .ofAlphabet s
  | addState name _ ih => exact ih.addState name
  | addEdge e _ ih => exact ih.addEdge e
  | setStart q _ ih => exact ⟨ih.nodup_names, ih.epsilon_not_mem, ih.label_mem⟩
  | addAccepting q _ ih => exact ⟨ih.nodup_names, ih.epsilon_not_mem, ih.label_mem⟩
  | ofGrammar translated => exact Grammar.wellFormed_of_toNfa translated

end Nfa

namespace Draft

variable {d e : Draft}

inductive Built : Draft → Prop
  | ofAlphabet (s : SymbolSet) : Built (Draft.ofAlphabet s)
  | addState {d : Draft} : Built d → Built d.addState.2
  | addDead {d : Draft} : Built d → Built d.addDead.2
  | setStart {d : Draft} (q : StateId) : Built d → Built (d.setStart q)
  | addAccepting {d : Draft} (q : StateId) : Built d → Built (d.addAccepting q)
  | addEdge {d e : Draft} {m : Edge} : Built d → d.addEdge m = .ok e → Built e

/-- States may be mentioned before they are added, so nothing is said of them but of the dead
one. -/
structure WellFormed (d : Draft) : Prop where
  dead_lt : ∀ q, d.dead = some q → q < d.numStates
  label_mem : ∀ r ∈ d.table, r.2 ∈ d.alphabet
  epsilon_not_mem : Symbol.epsilon ∉ d.alphabet

theorem WellFormed.ofAlphabet (s : SymbolSet) : (Draft.ofAlphabet s).WellFormed where
  dead_lt q h := by cases h
  label_mem _ h := absurd h Std.ExtTreeMap.not_mem_empty
  epsilon_not_mem h := ((SymbolSet.mem_readable s _).mp h).2 rfl

theorem WellFormed.addState (h : d.WellFormed) : d.addState.2.WellFormed where
  dead_lt q hq := Nat.lt_succ_of_lt (h.dead_lt q hq)
  label_mem := h.label_mem
  epsilon_not_mem := h.epsilon_not_mem

theorem WellFormed.addDead (h : d.WellFormed) : d.addDead.2.WellFormed where
  dead_lt q hq := by
    obtain rfl := Option.some.inj hq
    exact Nat.lt_succ_self _
  label_mem r hr := by
    rcases Std.ExtTreeMap.mem_insertMany_list.mp hr with old | new
    · exact h.label_mem r old
    · rw [List.map_map, List.contains_iff_mem] at new
      obtain ⟨a, ha, eq⟩ := List.mem_map.mp new
      rw [← eq]
      exact Std.ExtTreeSet.mem_toList.mp ha
  epsilon_not_mem := h.epsilon_not_mem

theorem addEdge_eq_ok_iff {m : Edge} : d.addEdge m = .ok e ↔ m.label ≠ Symbol.epsilon ∧
    { d with
      alphabet := d.alphabet.insert m.label
      table := d.table.insert (m.source, m.label) m.target } = e := by
  rw [Draft.addEdge]
  split <;> simp_all

theorem WellFormed.addEdge (h : d.WellFormed) {m : Edge} (added : d.addEdge m = .ok e) :
    e.WellFormed := by
  obtain ⟨readable, rfl⟩ := addEdge_eq_ok_iff.mp added
  refine ⟨h.dead_lt, ?_, ?_⟩
  · intro r hr
    rcases Std.ExtTreeMap.mem_insert.mp hr with new | old
    · have eq : (m.source, m.label) = r := Std.LawfulEqCmp.compare_eq_iff_eq.mp new
      rw [← eq]
      exact Std.ExtTreeSet.mem_insert_self
    · exact Std.ExtTreeSet.mem_insert.mpr (Or.inr (h.label_mem r old))
  · intro silent
    rcases Std.ExtTreeSet.mem_insert.mp silent with new | old
    · exact readable (Std.LawfulEqCmp.compare_eq_iff_eq.mp new)
    · exact h.epsilon_not_mem old

theorem Built.wellFormed (h : d.Built) : d.WellFormed := by
  induction h with
  | ofAlphabet s => exact .ofAlphabet s
  | addState _ ih => exact ih.addState
  | addDead _ ih => exact ih.addDead
  | setStart q _ ih => exact ⟨ih.dead_lt, ih.label_mem, ih.epsilon_not_mem⟩
  | addAccepting q _ ih => exact ⟨ih.dead_lt, ih.label_mem, ih.epsilon_not_mem⟩
  | addEdge _ added ih => exact ih.addEdge added

theorem le_foldl_max (qs : List Nat) (k : Nat) : k ≤ qs.foldl (fun n q => max n (q + 1)) k := by
  induction qs generalizing k with
  | nil => exact Nat.le_refl k
  | cons q qs ih =>
    rw [List.foldl_cons]
    exact le_trans (Nat.le_max_left k (q + 1)) (ih _)

theorem lt_foldl_max {qs : List Nat} {q : Nat} (hq : q ∈ qs) (k : Nat) :
    q < qs.foldl (fun n q => max n (q + 1)) k := by
  induction qs generalizing k with
  | nil => exact absurd hq List.not_mem_nil
  | cons p qs ih =>
    rw [List.foldl_cons]
    rcases List.mem_cons.mp hq with eq | hq
    · have counted : q < max k (p + 1) := by omega
      exact lt_of_lt_of_le counted (le_foldl_max qs _)
    · exact ih hq _

theorem lt_numStates_finish {q : StateId} (h : q ∈ d.mentioned) : q < d.finish.numStates :=
  lt_foldl_max h _

theorem WellFormed.finish (h : d.WellFormed) : d.finish.WellFormed where
  start_lt := lt_numStates_finish List.mem_cons_self
  dead_lt q hq := lt_of_lt_of_le (h.dead_lt q hq) (le_foldl_max _ _)
  accepting_lt q hq := by
    have named : q ∈ d.accepting.toList := Std.ExtTreeSet.mem_toList.mpr hq
    have listed : q ∈ d.mentioned := List.mem_append_left _ (List.mem_cons_of_mem _ named)
    exact lt_numStates_finish listed
  edge_lt q a t move := by
    have row : ((q, a), t) ∈ d.table.toList :=
      Std.ExtTreeMap.mem_toList_iff_getElem?_eq_some.mpr move
    have ends : ∀ s ∈ [q, t], s < d.finish.numStates := by
      intro s hs
      have listed : s ∈ d.mentioned :=
        List.mem_append_right _ (List.mem_flatMap.mpr ⟨_, row, hs⟩)
      exact lt_numStates_finish listed
    exact ⟨ends q (by simp), ends t (by simp)⟩
  label_mem q a t move := by
    apply h.label_mem (q, a)
    rw [Std.ExtTreeMap.mem_iff_isSome_getElem?]
    exact Option.isSome_of_eq_some move
  epsilon_not_mem := h.epsilon_not_mem

end Draft

namespace Dfa

variable {c : Connective} {d e : Dfa}

inductive Built : Dfa → Prop
  | finish {d : Draft} : d.Built → Built d.finish
  | determinize {n : Nfa} : n.Built → Built n.determinize
  | complement {d : Dfa} : Built d → Built d.complement
  | product {c : Connective} {l r d : Dfa} : Built l → Built r → product c l r = .ok d → Built d

theorem Built.wellFormed (h : d.Built) : d.WellFormed := by
  induction h with
  | finish draft => exact draft.wellFormed.finish
  | determinize n => exact n.wellFormed.determinize
  | complement _ ih => exact ih.complement
  | @product c l r d _ _ made hl _ =>
    obtain ⟨_, rfl⟩ := product_eq_ok_iff.mp made
    exact hl.pairAutomaton c r

theorem Built.foldlM_product {ds : List Dfa} (hd : d.Built)
    (h : ds.foldlM (Dfa.product c) d = .ok e) (hds : ∀ x ∈ ds, x.Built) : e.Built := by
  have step : ∀ x ∈ ds, ∀ y y' : Dfa, y.Built → Dfa.product c y x = .ok y' → y'.Built :=
    fun x hx _ _ hy made => .product hy (hds x hx) made
  exact Results.foldlM_invariant hd step h

theorem Built.foldOperands {ds : List Dfa}
    (h : RightLinear.foldOperands (Dfa.product c) ds = .ok e) (hds : ∀ x ∈ ds, x.Built) :
    e.Built := by
  cases ds with
  | nil => cases h
  | cons d ds =>
    have hd : d.Built := hds d List.mem_cons_self
    exact hd.foldlM_product h fun x hx => hds x (List.mem_cons_of_mem _ hx)

theorem Built.unionAll {ds : List Dfa} (h : Dfa.unionAll ds = .ok e) (hds : ∀ x ∈ ds, x.Built) :
    e.Built :=
  Built.foldOperands h hds

theorem Built.intersectionAll {ds : List Dfa} (h : Dfa.intersectionAll ds = .ok e)
    (hds : ∀ x ∈ ds, x.Built) : e.Built :=
  Built.foldOperands h hds

end Dfa

end RightLinear
