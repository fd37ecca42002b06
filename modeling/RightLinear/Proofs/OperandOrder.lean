import RightLinear.Proofs.Languages
import RightLinear.Proofs.Lockstep

namespace RightLinear

open List Relator

namespace Connective

/-- The connective on any number of answers. -/
def joint : Connective → List Bool → Bool
  | either, answers => answers.any id
  | both, answers => answers.all id

theorem joint_append (c : Connective) (xs ys : List Bool) :
    c.joint (xs ++ ys) = c.combine (c.joint xs) (c.joint ys) := by
  cases c <;> simp [joint, combine]

theorem joint_perm (c : Connective) {xs ys : List Bool} (h : xs.Perm ys) :
    c.joint xs = c.joint ys := by
  cases c
  · exact h.any_eq
  · exact h.all_eq

end Connective

namespace Dfa

variable {c : Connective} {alphabet : SymbolSet} {d e l r l' r' : Dfa} {u v w : Word}

/-- Where a word leads the two sides of a product. -/
def pairAfter (l r : Dfa) (w : Word) : StatePair := (l.run l.start w, r.run r.start w)

theorem foldl_nextPair_start (l r : Dfa) (w : Word) :
    w.foldl (nextPair l r) (some l.start, some r.start) = pairAfter l r w :=
  foldl_nextPair l r _ w

theorem pairAfter_append_singleton (l r : Dfa) (w : Word) (a : Symbol) :
    pairAfter l r (w ++ [a]) = nextPair l r (pairAfter l r w) a := by
  simp only [← foldl_nextPair_start, foldl_append, foldl_cons, foldl_nil]

theorem pairAfter_eq_iff : pairAfter l r u = pairAfter l r v ↔ l.Merges u v ∧ r.Merges u v :=
  Prod.ext_iff

theorem merges_pairAutomaton_iff (hu : ∀ a ∈ u, a ∈ l.alphabet) (hv : ∀ a ∈ v, a ∈ l.alphabet) :
    (pairAutomaton c l r).Merges u v ↔ l.Merges u v ∧ r.Merges u v := by
  rw [pairAutomaton, (enumerates_pairs l r).merges_iff hu hv, foldl_nextPair_start,
    foldl_nextPair_start, pairAfter_eq_iff]

theorem accepts_pairAutomaton (hw : ∀ a ∈ w, a ∈ l.alphabet) :
    (pairAutomaton c l r).accepts w = c.combine (l.accepts w) (r.accepts w) := by
  rw [pairAutomaton, (enumerates_pairs l r).accepts_eq hw, foldl_nextPair_start]
  rfl

section Abreast

/-- Pairs of states that some word over the alphabet leads two products to. -/
def Abreast (alphabet : SymbolSet) (l r l' r' : Dfa) (p p' : StatePair) : Prop :=
  ∃ w, (∀ a ∈ w, a ∈ alphabet) ∧ pairAfter l r w = p ∧ pairAfter l' r' w = p'

theorem biUnique_abreast (merges : ∀ u v, (∀ a ∈ u, a ∈ alphabet) → (∀ a ∈ v, a ∈ alphabet) →
      ((l.Merges u v ∧ r.Merges u v) ↔ (l'.Merges u v ∧ r'.Merges u v))) :
    BiUnique (Abreast alphabet l r l' r') := by
  constructor
  · intro p p' q h h'
    obtain ⟨u, hu, rfl, eq⟩ := h
    obtain ⟨v, hv, rfl, eq'⟩ := h'
    exact pairAfter_eq_iff.mpr ((merges u v hu hv).mpr (pairAfter_eq_iff.mp (eq.trans eq'.symm)))
  · intro p q q' h h'
    obtain ⟨u, hu, eq, rfl⟩ := h
    obtain ⟨v, hv, eq', rfl⟩ := h'
    exact pairAfter_eq_iff.mpr ((merges u v hu hv).mp (pairAfter_eq_iff.mp (eq.trans eq'.symm)))

theorem Abreast.next {p p' : StatePair} (h : Abreast alphabet l r l' r' p p') {a : Symbol}
    (ha : a ∈ alphabet) : Abreast alphabet l r l' r' (nextPair l r p a) (nextPair l' r' p' a) := by
  obtain ⟨w, hw, rfl, rfl⟩ := h
  refine ⟨w ++ [a], ?_, pairAfter_append_singleton l r w a, pairAfter_append_singleton l' r' w a⟩
  intro b hb
  rcases mem_append.mp hb with hb | hb
  · exact hw b hb
  · exact mem_singleton.mp hb ▸ ha

/-- A product is settled by which words lead to the same state in both sides, and by its
answers. -/
theorem pairAutomaton_eq {c' : Connective} (same : l.alphabet = l'.alphabet)
    (merges : ∀ u v, (∀ a ∈ u, a ∈ l.alphabet) → (∀ a ∈ v, a ∈ l.alphabet) →
      ((l.Merges u v ∧ r.Merges u v) ↔ (l'.Merges u v ∧ r'.Merges u v)))
    (answers : ∀ w, (∀ a ∈ w, a ∈ l.alphabet) →
      c.combine (l.accepts w) (r.accepts w) = c'.combine (l'.accepts w) (r'.accepts w)) :
    pairAutomaton c l r = pairAutomaton c' l' r' := by
  have unique : BiUnique (Abreast l.alphabet l r l' r') := biUnique_abreast merges
  have first : Abreast l.alphabet l r l' r' (some l.start, some r.start)
      (some l'.start, some r'.start) := ⟨[], by simp, rfl, rfl⟩
  have step : ∀ p p', Abreast l.alphabet l r l' r' p p' →
      Forall₂ (Abreast l.alphabet l r l' r') (l.alphabet.toList.map fun a => nextPair l r p a)
        (l'.alphabet.toList.map fun a => nextPair l' r' p' a) := by
    intro p p' h
    rw [← same, forall₂_map_left_iff, forall₂_map_right_iff, forall₂_same]
    intro a ha
    exact h.next (Std.ExtTreeSet.mem_toList.mp ha)
  have discovered : Forall₂ (Abreast l.alphabet l r l' r') (pairs l r) (pairs l' r') := by
    rw [pairs, pairs]
    exact forall₂_explore unique step pairSpace_closed pairSpace_closed (start_mem_pairSpace l r)
      (start_mem_pairSpace l' r') (length_pairSpace l r) (length_pairSpace l' r') first
  have agree : ∀ p p', Abreast l.alphabet l r l' r' p p' →
      acceptsPair c l r p = acceptsPair c' l' r' p' := by
    intro p p' h
    obtain ⟨w, hw, rfl, rfl⟩ := h
    exact answers w hw
  have move : ∀ p p', Abreast l.alphabet l r l' r' p p' → ∀ a ∈ l.alphabet,
      Abreast l.alphabet l r l' r' (nextPair l r p a) (nextPair l' r' p' a) :=
    fun _ _ h _ ha => h.next ha
  rw [pairAutomaton, pairAutomaton, ← same]
  exact ofStates_eq_of_forall₂ unique move agree discovered none

end Abreast

/-- What products over one alphabet make of a list of operands, however they are grouped. -/
inductive Combination (c : Connective) (alphabet : SymbolSet) : List Dfa → Dfa → Prop
  | operand {d : Dfa} : d.alphabet = alphabet → Combination c alphabet [d] d
  | pair {xs ys : List Dfa} {l r : Dfa} : Combination c alphabet xs l →
      Combination c alphabet ys r → Combination c alphabet (xs ++ ys) (pairAutomaton c l r)

namespace Combination

variable {xs ys ds : List Dfa}

theorem alphabet_eq (h : Combination c alphabet ds e) : e.alphabet = alphabet := by
  induction h with
  | operand same => exact same
  | pair _ _ ih _ => exact ih

theorem length_pos (h : Combination c alphabet ds e) : 0 < ds.length := by
  induction h with
  | operand => simp
  | pair _ _ ih _ =>
    rw [length_append]
    omega

theorem merges_iff (h : Combination c alphabet ds e) (hu : ∀ a ∈ u, a ∈ alphabet)
    (hv : ∀ a ∈ v, a ∈ alphabet) : e.Merges u v ↔ ∀ d ∈ ds, d.Merges u v := by
  induction h with
  | operand => simp
  | pair left _ ihl ihr =>
    obtain rfl := left.alphabet_eq
    rw [merges_pairAutomaton_iff hu hv, ihl, ihr, forall_mem_append]

theorem accepts_eq (h : Combination c alphabet ds e) (hw : ∀ a ∈ w, a ∈ alphabet) :
    e.accepts w = c.joint (ds.map fun d => d.accepts w) := by
  induction h with
  | operand => cases c <;> simp [Connective.joint]
  | pair left _ ihl ihr =>
    obtain rfl := left.alphabet_eq
    rw [accepts_pairAutomaton hw, ihl, ihr, map_append, Connective.joint_append]

/-- The order and the grouping of the operands leave no trace. -/
theorem eq_of_perm (h : Combination c alphabet xs d) (h' : Combination c alphabet ys e)
    (p : xs.Perm ys) : d = e := by
  have size : xs.length = ys.length := p.length_eq
  cases h with
  | operand =>
    cases h' with
    | operand => exact singleton_perm_singleton.mp p
    | pair left right =>
      have hl := left.length_pos
      have hr := right.length_pos
      simp only [length_singleton, length_append] at size
      omega
  | @pair xs xs' l r left right =>
    cases h' with
    | operand =>
      have hl := left.length_pos
      have hr := right.length_pos
      simp only [length_singleton, length_append] at size
      omega
    | @pair ys ys' l' r' left' right' =>
      obtain rfl := left.alphabet_eq
      apply pairAutomaton_eq left'.alphabet_eq.symm
      · intro u v hu hv
        have here : (l.Merges u v ∧ r.Merges u v) ↔ ∀ d ∈ xs ++ xs', d.Merges u v := by
          rw [left.merges_iff hu hv, right.merges_iff hu hv, forall_mem_append]
        have there : (l'.Merges u v ∧ r'.Merges u v) ↔ ∀ d ∈ ys ++ ys', d.Merges u v := by
          rw [left'.merges_iff hu hv, right'.merges_iff hu hv, forall_mem_append]
        rw [here, there]
        exact forall_congr' fun d => imp_congr_left p.mem_iff
      · intro w hw
        rw [left.accepts_eq hw, right.accepts_eq hw, left'.accepts_eq hw, right'.accepts_eq hw,
          ← Connective.joint_append, ← Connective.joint_append, ← map_append, ← map_append]
        exact c.joint_perm (p.map _)

theorem foldlM (h : Combination c alphabet xs d) (same : ∀ x ∈ ds, x.alphabet = alphabet) :
    ∃ e, ds.foldlM (product c) d = .ok e ∧ Combination c alphabet (xs ++ ds) e := by
  induction ds generalizing xs d with
  | nil => exact ⟨d, rfl, by simpa using h⟩
  | cons x ds ih =>
    have hx : x.alphabet = alphabet := same x mem_cons_self
    have first : product c d x = .ok (pairAutomaton c d x) :=
      product_eq_ok_iff.mpr ⟨h.alphabet_eq.trans hx.symm, rfl⟩
    obtain ⟨e, rest, made⟩ := ih (h.pair (.operand hx)) fun y hy => same y (mem_cons_of_mem _ hy)
    refine ⟨e, ?_, by simpa using made⟩
    rw [foldlM_cons, first]
    exact rest

theorem exists_foldOperands (c : Connective) (nonempty : ds ≠ [])
    (same : ∀ x ∈ ds, x.alphabet = alphabet) :
    ∃ e, foldOperands (product c) ds = .ok e ∧ Combination c alphabet ds e := by
  cases ds with
  | nil => exact absurd rfl nonempty
  | cons d ds =>
    have hd : d.alphabet = alphabet := same d mem_cons_self
    exact (Combination.operand hd).foldlM fun x hx => same x (mem_cons_of_mem _ hx)

theorem foldOperands_perm (c : Connective) (nonempty : xs ≠ [])
    (same : ∀ x ∈ xs, x.alphabet = alphabet) (p : xs.Perm ys) :
    ∃ e, foldOperands (product c) xs = .ok e ∧ foldOperands (product c) ys = .ok e := by
  have nonempty' : ys ≠ [] := by
    intro empty
    rw [empty] at p
    exact nonempty p.eq_nil
  have same' : ∀ y ∈ ys, y.alphabet = alphabet := fun y hy => same y (p.mem_iff.mpr hy)
  obtain ⟨d, first, made⟩ := exists_foldOperands c nonempty same
  obtain ⟨e, second, made'⟩ := exists_foldOperands c nonempty' same'
  obtain rfl := made.eq_of_perm made' p
  exact ⟨d, first, second⟩

theorem product_foldOperands (c : Connective) (hx : xs ≠ []) (hy : ys ≠ [])
    (same : ∀ x ∈ xs ++ ys, x.alphabet = alphabet) :
    ∃ l r e, foldOperands (product c) xs = .ok l ∧ foldOperands (product c) ys = .ok r ∧
      product c l r = .ok e ∧ foldOperands (product c) (xs ++ ys) = .ok e := by
  obtain ⟨samel, samer⟩ := forall_mem_append.mp same
  obtain ⟨l, left, madel⟩ := exists_foldOperands c hx samel
  obtain ⟨r, right, mader⟩ := exists_foldOperands c hy samer
  obtain ⟨e, all, made⟩ := exists_foldOperands c (append_ne_nil_of_left_ne_nil hx ys) same
  obtain rfl := made.eq_of_perm (madel.pair mader) (.refl _)
  have joined : product c l r = .ok (pairAutomaton c l r) :=
    product_eq_ok_iff.mpr ⟨madel.alphabet_eq.trans mader.alphabet_eq.symm, rfl⟩
  exact ⟨l, r, _, left, right, joined, all⟩

end Combination

/-- Operands with one alphabet may be put in any order and joined in any two portions: the
automaton is the same one, with the same numbers for its states. -/
theorem unionAll_intersectionAll_perm_append :
    (∀ xs ys : List Dfa, xs ≠ [] → (∀ d ∈ xs, ∀ e ∈ xs, d.alphabet = e.alphabet) → xs.Perm ys →
      (∃ u, unionAll xs = .ok u ∧ unionAll ys = .ok u) ∧
      (∃ i, intersectionAll xs = .ok i ∧ intersectionAll ys = .ok i)) ∧
    (∀ xs ys : List Dfa, xs ≠ [] → ys ≠ [] →
      (∀ d ∈ xs ++ ys, ∀ e ∈ xs ++ ys, d.alphabet = e.alphabet) →
      (∃ l r u, unionAll xs = .ok l ∧ unionAll ys = .ok r ∧ union l r = .ok u ∧
        unionAll (xs ++ ys) = .ok u) ∧
      (∃ l r i, intersectionAll xs = .ok l ∧ intersectionAll ys = .ok r ∧
        intersection l r = .ok i ∧ intersectionAll (xs ++ ys) = .ok i)) := by
  constructor
  · intro xs ys nonempty same p
    obtain ⟨d, hd⟩ := exists_mem_of_ne_nil xs nonempty
    have shared : ∀ x ∈ xs, x.alphabet = d.alphabet := fun x hx => same x hx d hd
    exact ⟨Combination.foldOperands_perm .either nonempty shared p,
      Combination.foldOperands_perm .both nonempty shared p⟩
  · intro xs ys hx hy same
    obtain ⟨d, hd⟩ := exists_mem_of_ne_nil xs hx
    have shared : ∀ x ∈ xs ++ ys, x.alphabet = d.alphabet :=
      fun x hx => same x hx d (mem_append_left ys hd)
    exact ⟨Combination.product_foldOperands .either hx hy shared,
      Combination.product_foldOperands .both hx hy shared⟩

/-- Three partial automata.  Of the four states of their union, the one in which all sides are
silent rejects. -/
theorem unionAll_intersectionAll_perm_append_partial : ∃ x y z : Dfa,
    x.Built ∧ y.Built ∧ z.Built ∧ ¬x.IsTotal ∧ ¬y.IsTotal ∧ ¬z.IsTotal ∧ [x, y, z].Nodup ∧
    (∃ u, unionAll [x, y, z] = .ok u ∧ unionAll [z, x, y] = .ok u ∧ u.numStates = 4 ∧
      u.accepting = .ofList [0, 1, 2]) ∧
    (∃ i, intersectionAll [x, y, z] = .ok i ∧ intersectionAll [z, x, y] = .ok i ∧
      i.numStates = 4 ∧ i.accepting = ∅) ∧
    (∃ l r u, unionAll [x] = .ok l ∧ unionAll [y, z] = .ok r ∧ union l r = .ok u ∧
      unionAll [x, y, z] = .ok u) ∧
    (∃ l r i, intersectionAll [x] = .ok l ∧ intersectionAll [y, z] = .ok r ∧
      intersection l r = .ok i ∧ intersectionAll [x, y, z] = .ok i) := by
  have left : (loopDraft 'a').finish.Built := .finish (built_loopDraft (by decide))
  have right : (loopDraft 'b').finish.Built := .finish (built_loopDraft (by decide))
  have same : ∀ d ∈ [(loopDraft 'a').finish, (loopDraft 'b').finish,
      (loopDraft 'a').finish.complement], ∀ e ∈ [(loopDraft 'a').finish, (loopDraft 'b').finish,
      (loopDraft 'a').finish.complement], d.alphabet = e.alphabet := by
    decide
  have turned : [(loopDraft 'a').finish, (loopDraft 'b').finish,
      (loopDraft 'a').finish.complement].Perm [(loopDraft 'a').finish.complement,
      (loopDraft 'a').finish, (loopDraft 'b').finish] :=
    perm_append_singleton _ [_, _]
  obtain ⟨⟨u, joined, joined'⟩, i, met, met'⟩ :=
    unionAll_intersectionAll_perm_append.1 _ _ (by simp) same turned
  have grouped := unionAll_intersectionAll_perm_append.2 [_] [_, _] (by simp) (by simp) same
  have shape : (unionAll [(loopDraft 'a').finish, (loopDraft 'b').finish,
      (loopDraft 'a').finish.complement]).toOption.map (fun d => (d.numStates, d.accepting)) =
      some (4, .ofList [0, 1, 2]) := by decide +kernel
  have shape' : (intersectionAll [(loopDraft 'a').finish, (loopDraft 'b').finish,
      (loopDraft 'a').finish.complement]).toOption.map (fun d => (d.numStates, d.accepting)) =
      some (4, ∅) := by decide +kernel
  rw [joined] at shape
  rw [met] at shape'
  obtain ⟨size, accepting⟩ := Prod.mk.inj (Option.some.inj shape)
  obtain ⟨size', accepting'⟩ := Prod.mk.inj (Option.some.inj shape')
  exact ⟨_, _, _, left, right, .complement left, by decide +kernel, by decide +kernel,
    by decide +kernel, by decide +kernel, ⟨u, joined, joined', size, accepting⟩,
    ⟨i, met, met', size', accepting'⟩, grouped.1, grouped.2⟩

end Dfa

end RightLinear
