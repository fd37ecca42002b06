import Mathlib.Data.List.ProdSigma
import RightLinear.Proofs.Discovery
import RightLinear.Proofs.NumberedStates
import RightLinear.Proofs.Results

namespace RightLinear.Dfa

variable {c : Connective} {d e l r : Dfa}

/-- Where one side can be: silent, in its start state, or in a target of its table. -/
def sideSpace (d : Dfa) : List (Option StateId) :=
  none :: some d.start :: d.table.toList.map fun row => some row.2

theorem length_sideSpace (d : Dfa) : d.sideSpace.length = d.table.size + 2 := by
  rw [sideSpace, List.length_cons, List.length_cons, List.length_map,
    Std.ExtTreeMap.length_toList]

theorem next?_mem_sideSpace (d : Dfa) (q : StateId) (a : Symbol) : d.next? q a ∈ d.sideSpace := by
  cases move : d.next? q a with
  | none => exact List.mem_cons_self
  | some t =>
    have row : ((q, a), t) ∈ d.table.toList :=
      Std.ExtTreeMap.mem_toList_iff_getElem?_eq_some.mpr move
    have target : some t ∈ d.table.toList.map fun row => some row.2 :=
      List.mem_map.mpr ⟨_, row, rfl⟩
    exact List.mem_cons_of_mem _ (List.mem_cons_of_mem _ target)

theorem bind_mem_sideSpace (d : Dfa) (p : Option StateId) (a : Symbol) :
    (p.bind fun q => d.next? q a) ∈ d.sideSpace := by
  cases p with
  | none => exact List.mem_cons_self
  | some q => exact d.next?_mem_sideSpace q a

theorem nextPair_mem_space (l r : Dfa) (p : StatePair) (a : Symbol) :
    nextPair l r p a ∈ l.sideSpace ×ˢ r.sideSpace :=
  List.mem_product.mpr ⟨l.bind_mem_sideSpace p.1 a, r.bind_mem_sideSpace p.2 a⟩

theorem nodup_pairs (l r : Dfa) : (pairs l r).Nodup := nodup_explore _ _ _ _ (by simp)

theorem pairSpace_closed {l r : Dfa} : ∀ p ∈ l.sideSpace ×ˢ r.sideSpace,
    ∀ q ∈ l.alphabet.toList.map fun a => nextPair l r p a, q ∈ l.sideSpace ×ˢ r.sideSpace := by
  intro p _ q hq
  obtain ⟨a, _, eq⟩ := List.mem_map.mp hq
  exact eq ▸ nextPair_mem_space l r p a

theorem start_mem_pairSpace (l r : Dfa) :
    (some l.start, some r.start) ∈ l.sideSpace ×ˢ r.sideSpace :=
  List.mem_product.mpr ⟨by simp [sideSpace], by simp [sideSpace]⟩

theorem length_pairSpace (l r : Dfa) :
    (l.sideSpace ×ˢ r.sideSpace).length ≤ (l.table.size + 2) * (r.table.size + 2) := by
  apply Nat.le_of_eq
  rw [List.length_product, length_sideSpace, length_sideSpace]

theorem nextPair_mem_pairs {p : StatePair} {a : Symbol} (hp : p ∈ pairs l r)
    (ha : a ∈ l.alphabet) : nextPair l r p a ∈ pairs l r := by
  have step : nextPair l r p a ∈ l.alphabet.toList.map fun a => nextPair l r p a :=
    List.mem_map.mpr ⟨a, Std.ExtTreeSet.mem_toList.mpr ha, rfl⟩
  have within : ∀ p ∈ [(some l.start, some r.start)], p ∈ l.sideSpace ×ˢ r.sideSpace :=
    List.forall_mem_singleton.mpr (start_mem_pairSpace l r)
  exact explore_closed pairSpace_closed (by simp) within (length_pairSpace l r) p hp _ step

theorem enumerates_pairs (l r : Dfa) :
    Enumerates l.alphabet (pairs l r) (nextPair l r) (some l.start, some r.start) where
  head?_eq := head?_explore _ _
  nodup := nodup_pairs l r
  closed _ hp _ ha := nextPair_mem_pairs hp ha

theorem foldl_nextPair (l r : Dfa) (p : StatePair) (w : Word) :
    w.foldl (nextPair l r) p =
      (p.1.bind fun q => l.run q w, p.2.bind fun q => r.run q w) := by
  induction w generalizing p with
  | nil => simp [run]
  | cons a w ih =>
    rw [List.foldl_cons, ih, nextPair]
    simp only [Option.bind_assoc, run]

theorem WellFormed.pairAutomaton (hl : l.WellFormed) (c : Connective) (r : Dfa) :
    (Dfa.pairAutomaton c l r).WellFormed :=
  (enumerates_pairs l r).wellFormed (by simp) hl.epsilon_not_mem

/-- A word with a symbol outside the alphabet is rejected by both sides, and by the pairs too. -/
theorem WellFormed.accepts_pairAutomaton (hl : l.WellFormed) (hr : r.WellFormed)
    (same : l.alphabet = r.alphabet) (c : Connective) (w : Word) :
    (Dfa.pairAutomaton c l r).accepts w = c.combine (l.accepts w) (r.accepts w) := by
  have judge : (Dfa.pairAutomaton c l r).accepts w = true ↔ (∀ a ∈ w, a ∈ l.alphabet) ∧
      acceptsPair c l r (w.foldl (nextPair l r) (some l.start, some r.start)) = true :=
    (enumerates_pairs l r).accepts_iff (by simp) hl.epsilon_not_mem
  have sides : acceptsPair c l r (w.foldl (nextPair l r) (some l.start, some r.start)) =
      c.combine (l.accepts w) (r.accepts w) := by
    rw [foldl_nextPair]
    rfl
  rw [Bool.eq_iff_iff, judge, sides]
  constructor
  · intro h
    exact h.2
  · intro h
    refine ⟨?_, h⟩
    have either : l.accepts w = true ∨ r.accepts w = true := by
      cases c <;> simp_all [Connective.combine]
    rcases either with left | right
    · exact hl.mem_alphabet_of_accepts left
    · exact same ▸ hr.mem_alphabet_of_accepts right

theorem product_eq_ok_iff :
    product c l r = .ok d ↔ l.alphabet = r.alphabet ∧ pairAutomaton c l r = d := by
  rw [product]
  split <;> simp_all

theorem foldlM_product {ds : List Dfa} (h : ds.foldlM (product c) d = .ok e) (hd : d.WellFormed)
    (hds : ∀ x ∈ ds, x.WellFormed) : e.WellFormed ∧ e.alphabet = d.alphabet ∧
      ∀ w, e.accepts w = ds.foldl (fun b x => c.combine b (x.accepts w)) (d.accepts w) := by
  induction ds generalizing d with
  | nil =>
    obtain rfl := Except.ok.inj h
    exact ⟨hd, rfl, fun _ => rfl⟩
  | cons x ds ih =>
    have hx : x.WellFormed := hds x List.mem_cons_self
    rw [List.foldlM_cons] at h
    obtain ⟨y, first, rest⟩ := Results.bind_eq_ok_iff.mp h
    obtain ⟨same, rfl⟩ := product_eq_ok_iff.mp first
    obtain ⟨he, alphabet, accepts⟩ := ih rest (hd.pairAutomaton c x)
      fun z hz => hds z (List.mem_cons_of_mem _ hz)
    refine ⟨he, alphabet, ?_⟩
    intro w
    rw [accepts, hd.accepts_pairAutomaton hx same, List.foldl_cons]

theorem exists_foldlM_product (c : Connective) {ds : List Dfa}
    (same : ∀ x ∈ ds, x.alphabet = d.alphabet) : ∃ e, ds.foldlM (product c) d = .ok e := by
  induction ds generalizing d with
  | nil => exact ⟨d, rfl⟩
  | cons x ds ih =>
    have first : product c d x = .ok (pairAutomaton c d x) :=
      product_eq_ok_iff.mpr ⟨(same x List.mem_cons_self).symm, rfl⟩
    rw [List.foldlM_cons, first]
    exact ih fun y hy => same y (List.mem_cons_of_mem _ hy)

theorem exists_foldOperands_product (c : Connective) {ds : List Dfa} (nonempty : ds ≠ [])
    (same : ∀ x ∈ ds, ∀ y ∈ ds, x.alphabet = y.alphabet) :
    ∃ e, foldOperands (product c) ds = .ok e := by
  cases ds with
  | nil => exact absurd rfl nonempty
  | cons d ds =>
    exact exists_foldlM_product c fun x hx =>
      same x (List.mem_cons_of_mem _ hx) d List.mem_cons_self

theorem foldl_either (f : Dfa → Bool) (b : Bool) (ds : List Dfa) :
    ds.foldl (fun b x => Connective.either.combine b (f x)) b = (b || ds.any f) := by
  induction ds generalizing b with
  | nil => simp
  | cons x ds ih => rw [List.foldl_cons, ih, List.any_cons, Connective.combine, Bool.or_assoc]

theorem foldl_both (f : Dfa → Bool) (b : Bool) (ds : List Dfa) :
    ds.foldl (fun b x => Connective.both.combine b (f x)) b = (b && ds.all f) := by
  induction ds generalizing b with
  | nil => simp
  | cons x ds ih => rw [List.foldl_cons, ih, List.all_cons, Connective.combine, Bool.and_assoc]

theorem accepts_unionAll {ds : List Dfa} (h : unionAll ds = .ok e) (hds : ∀ x ∈ ds, x.WellFormed)
    (w : Word) : e.accepts w = ds.any fun x => x.accepts w := by
  cases ds with
  | nil => cases h
  | cons d ds =>
    have hd : d.WellFormed := hds d List.mem_cons_self
    obtain ⟨_, _, accepts⟩ := foldlM_product h hd fun x hx => hds x (List.mem_cons_of_mem _ hx)
    rw [accepts, foldl_either, List.any_cons]

theorem accepts_intersectionAll {ds : List Dfa} (h : intersectionAll ds = .ok e)
    (hds : ∀ x ∈ ds, x.WellFormed) (w : Word) : e.accepts w = ds.all fun x => x.accepts w := by
  cases ds with
  | nil => cases h
  | cons d ds =>
    have hd : d.WellFormed := hds d List.mem_cons_self
    obtain ⟨_, _, accepts⟩ := foldlM_product h hd fun x hx => hds x (List.mem_cons_of_mem _ hx)
    rw [accepts, foldl_both, List.all_cons]

end RightLinear.Dfa
