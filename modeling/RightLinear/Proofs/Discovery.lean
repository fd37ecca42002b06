import Mathlib.Logic.Relation
import RightLinear.Explore

namespace RightLinear

open Relation

variable {α : Type} {next : α → List α}

/-- A discovery under way inside a space.  Steps from what has been expanded lead to what has been
listed. -/
structure Frontier (next : α → List α) (space done queue : List α) : Prop where
  nodup : (done ++ queue).Nodup
  within : ∀ x ∈ done ++ queue, x ∈ space
  expanded : ∀ x ∈ done, ∀ y ∈ next x, y ∈ done ++ queue

theorem Frontier.start {space queue : List α} (hn : queue.Nodup) (hw : ∀ x ∈ queue, x ∈ space) :
    Frontier next space [] queue where
  nodup := hn
  within := hw
  expanded _ hx := absurd hx List.not_mem_nil

theorem Frontier.queue_eq_nil {space done queue : List α} (h : Frontier next space done queue)
    (full : space.length ≤ done.length) : queue = [] := by
  have fits := h.nodup.length_le_of_subset h.within
  rw [List.length_append] at fits
  exact List.eq_nil_of_length_eq_zero (by omega)

variable [DecidableEq α]

theorem mem_expand {done queue : List α} {x y : α} :
    y ∈ done ++ [x] ++ (queue ++ fresh (done ++ x :: queue) (next x)) ↔
      y ∈ done ++ x :: queue ∨ y ∈ next x := by
  have split : y ∈ done ++ [x] ++ (queue ++ fresh (done ++ x :: queue) (next x)) ↔
      y ∈ done ++ x :: queue ∨ y ∈ fresh (done ++ x :: queue) (next x) := by
    simp only [List.mem_append, List.mem_cons, List.not_mem_nil, or_false, or_assoc]
  rw [split, mem_fresh]
  by_cases h : y ∈ done ++ x :: queue <;> simp [h]

/-- What holds of the queue and is passed on by every step holds of all that is discovered. -/
theorem explore_invariant {P : α → Prop} (step : ∀ x, P x → ∀ y ∈ next x, P y) (fuel : Nat)
    (done queue : List α) (h : ∀ x ∈ done ++ queue, P x) :
    ∀ x ∈ explore next fuel done queue, P x := by
  induction fuel generalizing done queue with
  | zero => exact h
  | succ fuel ih =>
    cases queue with
    | nil => simpa [explore] using h
    | cons x queue =>
      apply ih
      intro y hy
      rcases mem_expand.mp hy with old | new
      · exact h y old
      · exact step x (h x (by simp)) y new

theorem Frontier.expand {space done queue : List α} {x : α}
    (closed : ∀ x ∈ space, ∀ y ∈ next x, y ∈ space) (h : Frontier next space done (x :: queue)) :
    Frontier next space (done ++ [x]) (queue ++ fresh (done ++ x :: queue) (next x)) where
  nodup := nodup_expand next h.nodup
  within y hy := by
    rcases mem_expand.mp hy with old | new
    · exact h.within y old
    · exact closed x (h.within x (by simp)) y new
  expanded y hy z hz := by
    apply mem_expand.mpr
    rcases List.mem_append.mp hy with hy | hy
    · exact Or.inl (h.expanded y hy z hz)
    · obtain rfl := List.mem_singleton.mp hy
      exact Or.inr hz

/-- One turn of a discovery: the front of the queue is expanded, and what it newly leads to joins
the queue. -/
inductive Turn (next : α → List α) : List α × List α → List α × List α → Prop
  | expand (done queue : List α) (x : α) :
      Turn next (done, x :: queue) (done ++ [x], queue ++ fresh (done ++ x :: queue) (next x))

/-- Turn by turn the discovery comes to an end: the queue is empty, and the elements of `listed`
were expanded in this order. -/
def Completes (next : α → List α) (queue listed : List α) : Prop :=
  ReflTransGen (Turn next) ([], queue) (listed, [])

theorem prefix_of_turns {done queue done' queue' : List α}
    (turns : ReflTransGen (Turn next) (done, queue) (done', queue')) :
    done ++ queue <+: done' ++ queue' := by
  generalize hs : (done, queue) = s at turns
  generalize ht : (done', queue') = t at turns
  induction turns generalizing done' queue' with
  | refl =>
    obtain ⟨rfl, rfl⟩ := Prod.mk.inj (hs.trans ht.symm)
    exact List.prefix_rfl
  | tail _ turn ih =>
    cases turn with
    | expand done queue x =>
      obtain ⟨rfl, rfl⟩ := Prod.mk.inj ht
      refine (ih rfl).trans ?_
      simp

theorem Frontier.turns {space done queue done' queue' : List α}
    (closed : ∀ x ∈ space, ∀ y ∈ next x, y ∈ space) (h : Frontier next space done queue)
    (turns : ReflTransGen (Turn next) (done, queue) (done', queue')) :
    Frontier next space done' queue' := by
  generalize hs : (done, queue) = s at turns
  generalize ht : (done', queue') = t at turns
  induction turns generalizing done' queue' with
  | refl =>
    obtain ⟨rfl, rfl⟩ := Prod.mk.inj (hs.trans ht.symm)
    exact h
  | tail _ turn ih =>
    cases turn with
    | expand done queue x =>
      obtain ⟨rfl, rfl⟩ := Prod.mk.inj ht
      exact (ih rfl).expand closed

theorem Frontier.turns_explore {space : List α} (closed : ∀ x ∈ space, ∀ y ∈ next x, y ∈ space)
    {fuel : Nat} {done queue : List α} (h : Frontier next space done queue)
    (enough : space.length ≤ fuel + done.length) :
    ReflTransGen (Turn next) (done, queue) (explore next fuel done queue, []) := by
  -- Each turn spends one unit of fuel and lengthens `done` by one, so fuel for the whole
  -- space is enough to expand everything that is listed.
  induction fuel generalizing done queue with
  | zero =>
    have hq : queue = [] := h.queue_eq_nil (by omega)
    subst hq
    simpa [explore] using ReflTransGen.refl
  | succ fuel ih =>
    cases queue with
    | nil => exact .refl
    | cons x queue =>
      have lasts : space.length ≤ fuel + (done ++ [x]).length := by
        simp only [List.length_append, List.length_singleton]
        omega
      exact .head (.expand done queue x) (ih (h.expand closed) lasts)

/-- The fuel is never what ends a discovery. -/
theorem completes_explore {space : List α} (closed : ∀ x ∈ space, ∀ y ∈ next x, y ∈ space)
    {fuel : Nat} {queue : List α} (hn : queue.Nodup) (hw : ∀ x ∈ queue, x ∈ space)
    (enough : space.length ≤ fuel) : Completes next queue (explore next fuel [] queue) := by
  have front : Frontier next space [] queue := Frontier.start hn hw
  have lasts : space.length ≤ fuel + ([] : List α).length := by simpa using enough
  exact front.turns_explore closed lasts

theorem explore_closed {space : List α} (closed : ∀ x ∈ space, ∀ y ∈ next x, y ∈ space)
    {fuel : Nat} {queue : List α} (hn : queue.Nodup) (hw : ∀ x ∈ queue, x ∈ space)
    (enough : space.length ≤ fuel) :
    ∀ x ∈ explore next fuel [] queue, ∀ y ∈ next x, y ∈ explore next fuel [] queue := by
  have front : Frontier next space [] queue := Frontier.start hn hw
  have last := (front.turns closed (completes_explore closed hn hw enough)).expanded
  simpa only [List.append_nil] using last

/-- Discovery finds what steps lead to, and nothing else. -/
theorem mem_explore_iff {space : List α} (closed : ∀ x ∈ space, ∀ y ∈ next x, y ∈ space)
    {fuel : Nat} {queue : List α} (hn : queue.Nodup) (hw : ∀ x ∈ queue, x ∈ space)
    (enough : space.length ≤ fuel) (y : α) :
    y ∈ explore next fuel [] queue ↔ ∃ x ∈ queue, ReflTransGen (fun x y => y ∈ next x) x y := by
  constructor
  · apply explore_invariant (P := fun y => ∃ x ∈ queue, ReflTransGen (fun x y => y ∈ next x) x y)
    · intro y hy z hz
      obtain ⟨x, hx, steps⟩ := hy
      exact ⟨x, hx, steps.tail hz⟩
    · intro x hx
      exact ⟨x, hx, .refl⟩
  · intro hy
    obtain ⟨x, hx, steps⟩ := hy
    induction steps with
    | refl => exact (explore_extends next fuel [] queue).subset hx
    | tail _ step ih => exact explore_closed closed hn hw enough _ ih _ step

theorem head?_explore (fuel : Nat) (x : α) : (explore next fuel [] [x]).head? = some x := by
  obtain ⟨rest, h⟩ := explore_extends next fuel [] [x]
  rw [← h]
  rfl

end RightLinear
