import Mathlib.Data.List.Forall2
import RightLinear.Proofs.Discovery
import RightLinear.Proofs.NumberedStates

namespace RightLinear

open List Relator

variable {α β : Type} {R : α → β → Prop}

section Discovery

variable [DecidableEq α] [DecidableEq β] {next : α → List α} {next' : β → List β}

theorem forall₂_fresh (unique : BiUnique R) {seen xs : List α} {seen' xs' : List β}
    (hs : Forall₂ R seen seen') (hx : Forall₂ R xs xs') :
    Forall₂ R (fresh seen xs) (fresh seen' xs') := by
  induction hx generalizing seen seen' with
  | nil => exact .nil
  | @cons x y xs ys first _ ih =>
    have known : x ∈ seen ↔ y ∈ seen' := rel_mem unique first hs
    by_cases hy : y ∈ seen'
    · have hx : x ∈ seen := known.mpr hy
      simpa only [fresh, hx, hy, if_true] using ih hs
    · have hx : x ∉ seen := fun hx => hy (known.mp hx)
      simpa only [fresh, hx, hy, if_false] using Forall₂.cons first (ih (.cons first hs))

theorem Frontier.forall₂_explore {space : List α} {space' : List β} (unique : BiUnique R)
    (step : ∀ x y, R x y → Forall₂ R (next x) (next' y))
    (closed : ∀ x ∈ space, ∀ y ∈ next x, y ∈ space)
    (closed' : ∀ x ∈ space', ∀ y ∈ next' x, y ∈ space')
    {fuel fuel' : Nat} {done queue : List α} {done' queue' : List β}
    (h : Frontier next space done queue) (h' : Frontier next' space' done' queue')
    (enough : space.length ≤ fuel + done.length) (enough' : space'.length ≤ fuel' + done'.length)
    (hd : Forall₂ R done done') (hq : Forall₂ R queue queue') :
    Forall₂ R (explore next fuel done queue) (explore next' fuel' done' queue') := by
  -- Neither discovery runs out of fuel, so both end when the queues are empty, which happens
  -- together.
  induction fuel generalizing fuel' done queue done' queue' with
  | zero =>
    have nothing : queue = [] := h.queue_eq_nil (by omega)
    subst nothing
    obtain rfl := forall₂_nil_left_iff.mp hq
    cases fuel' <;> simpa [explore] using hd
  | succ fuel ih =>
    cases hq with
    | nil => cases fuel' <;> simpa [explore] using hd
    | @cons x y queue queue' first rest =>
      cases fuel' with
      | zero =>
        have nothing : y :: queue' = [] := h'.queue_eq_nil (by omega)
        cases nothing
      | succ fuel' =>
        have listed : Forall₂ R (done ++ x :: queue) (done' ++ y :: queue') :=
          rel_append hd (.cons first rest)
        have met : Forall₂ R (fresh (done ++ x :: queue) (next x))
            (fresh (done' ++ y :: queue') (next' y)) :=
          forall₂_fresh unique listed (step x y first)
        apply ih (h.expand closed) (h'.expand closed')
        · simp only [length_append, length_singleton]
          omega
        · simp only [length_append, length_singleton]
          omega
        · exact rel_append hd (.cons first .nil)
        · exact rel_append rest met

theorem forall₂_explore {space : List α} {space' : List β} (unique : BiUnique R)
    (step : ∀ x y, R x y → Forall₂ R (next x) (next' y))
    (closed : ∀ x ∈ space, ∀ y ∈ next x, y ∈ space)
    (closed' : ∀ x ∈ space', ∀ y ∈ next' x, y ∈ space')
    {fuel fuel' : Nat} {x : α} {y : β} (hx : x ∈ space) (hy : y ∈ space')
    (enough : space.length ≤ fuel) (enough' : space'.length ≤ fuel') (first : R x y) :
    Forall₂ R (explore next fuel [] [x]) (explore next' fuel' [] [y]) := by
  have front : Frontier next space [] [x] := .start (by simp) (by simpa using hx)
  have front' : Frontier next' space' [] [y] := .start (by simp) (by simpa using hy)
  have start : Forall₂ R [x] [y] := .cons first .nil
  exact front.forall₂_explore unique step closed closed' front' enough enough' .nil start

end Discovery

theorem idxOf_eq_of_forall₂ [DecidableEq α] [DecidableEq β] (unique : BiUnique R) {x : α} {y : β}
    (first : R x y) {xs : List α} {ys : List β} (h : Forall₂ R xs ys) :
    xs.idxOf x = ys.idxOf y := by
  induction h with
  | nil => rfl
  | @cons x' y' xs ys first' _ ih =>
    have same : x' = x ↔ y' = y := rel_eq unique first' first
    by_cases hy : y' = y
    · simp [hy, same.mpr hy]
    · have hx : ¬x' = x := fun hx => hy (same.mp hx)
      simp [hx, hy, ih]

namespace Dfa

variable {σ τ : Type} {R : σ → τ → Prop} {alphabet : SymbolSet} {next : σ → Symbol → σ}
  {next' : τ → Symbol → τ}

/-- Only the places of the states in their lists can be seen in an automaton. -/
theorem ofStates_eq_of_forall₂ [DecidableEq σ] [DecidableEq τ] (unique : BiUnique R)
    (step : ∀ s t, R s t → ∀ a ∈ alphabet, R (next s a) (next' t a)) {accepts : σ → Bool}
    {accepts' : τ → Bool} (agree : ∀ s t, R s t → accepts s = accepts' t) {states : List σ}
    {states' : List τ} (h : Forall₂ R states states') (dead : Option StateId) :
    ofStates alphabet states next accepts dead = ofStates alphabet states' next' accepts' dead := by
  have place : ∀ s t, R s t → states.idxOf s = states'.idxOf t :=
    fun s t hst => idxOf_eq_of_forall₂ unique hst h
  have row : ∀ s t, R s t →
      alphabet.toList.map (fun a => ((states.idxOf s, a), states.idxOf (next s a))) =
        alphabet.toList.map (fun a => ((states'.idxOf t, a), states'.idxOf (next' t a))) := by
    intro s t hst
    apply map_congr_left
    intro a ha
    have ha : a ∈ alphabet := Std.ExtTreeSet.mem_toList.mp ha
    rw [place s t hst, place _ _ (step s t hst a ha)]
  have table : Forall₂ Eq (rows alphabet states next) (rows alphabet states' next') := by
    apply rel_flatMap h
    intro s t hst
    rw [forall₂_eq_eq_eq]
    exact row s t hst
  have accepting : Forall₂ Eq ((states.filter accepts).map fun s => states.idxOf s)
      ((states'.filter accepts').map fun t => states'.idxOf t) :=
    rel_map place (rel_filter (fun s t hst => iff_of_eq (congrArg (· = true) (agree s t hst))) h)
  rw [forall₂_eq_eq_eq] at table accepting
  simp only [ofStates, h.length_eq, table, accepting]

end Dfa

end RightLinear
