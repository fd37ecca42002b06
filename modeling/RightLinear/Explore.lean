namespace RightLinear

variable {α : Type} [DecidableEq α]

/-- The elements of a list that are not yet seen, each at its first occurrence. -/
def fresh (seen : List α) : List α → List α
  | [] => []
  | x :: xs => if x ∈ seen then fresh seen xs else x :: fresh (x :: seen) xs

/-- The elements of a list, each at its first occurrence. -/
def firstOccurrences (xs : List α) : List α := fresh [] xs

/-- Expands the queue from its front.  `done` holds what has been expanded, and one unit of fuel
is spent on each expansion, so the number of elements that can be met is always enough. -/
def explore (next : α → List α) : (fuel : Nat) → (done queue : List α) → List α
  | 0, done, queue => done ++ queue
  | _ + 1, done, [] => done
  | fuel + 1, done, x :: queue =>
    explore next fuel (done ++ [x]) (queue ++ fresh (done ++ x :: queue) (next x))

theorem mem_fresh (seen xs : List α) (x : α) : x ∈ fresh seen xs ↔ x ∈ xs ∧ x ∉ seen := by
  induction xs generalizing seen with
  | nil => simp [fresh]
  | cons y ys ih =>
    by_cases hy : y ∈ seen
    · simp only [fresh, hy, if_true, ih, List.mem_cons]
      exact ⟨fun h => ⟨.inr h.1, h.2⟩,
        fun h => ⟨h.1.resolve_left fun e => h.2 (e ▸ hy), h.2⟩⟩
    · simp only [fresh, hy, if_false, List.mem_cons, ih]
      by_cases hx : x = y
      · simp [hx, hy]
      · simp [hx]

theorem nodup_fresh (seen xs : List α) : (fresh seen xs).Nodup := by
  induction xs generalizing seen with
  | nil => exact List.Pairwise.nil
  | cons y ys ih =>
    by_cases hy : y ∈ seen
    · simpa only [fresh, hy, if_true] using ih seen
    · simp only [fresh, hy, if_false, List.nodup_cons]
      exact ⟨fun h => ((mem_fresh _ _ _).1 h).2 (List.mem_cons_self ..), ih _⟩

theorem fresh_concat (seen xs : List α) (x : α) : fresh seen (xs ++ [x]) =
    if x ∈ seen ∨ x ∈ xs then fresh seen xs else fresh seen xs ++ [x] := by
  induction xs generalizing seen with
  | nil => simp [fresh]
  | cons y xs ih =>
    by_cases old : y ∈ seen
    · have met : x ∈ seen ∨ x ∈ y :: xs ↔ x ∈ seen ∨ x ∈ xs := by
        rw [List.mem_cons, ← or_assoc]
        exact or_congr_left (or_iff_left_of_imp fun same => same ▸ old)
      simp only [List.cons_append, fresh, if_pos old, ih, met]
    · have met : x ∈ y :: seen ∨ x ∈ xs ↔ x ∈ seen ∨ x ∈ y :: xs := by
        rw [List.mem_cons, List.mem_cons, or_assoc, or_left_comm]
      simp only [List.cons_append, fresh, if_neg old, ih, met]
      split <;> rfl

@[simp] theorem mem_firstOccurrences (xs : List α) (x : α) : x ∈ firstOccurrences xs ↔ x ∈ xs := by
  simp [firstOccurrences, mem_fresh]

theorem nodup_firstOccurrences (xs : List α) : (firstOccurrences xs).Nodup := nodup_fresh [] xs

/-- What has been expanded or queued is never lost and never reordered. -/
theorem explore_extends (next : α → List α) (fuel : Nat) (done queue : List α) :
    done ++ queue <+: explore next fuel done queue := by
  induction fuel generalizing done queue with
  | zero => exact List.prefix_rfl
  | succ fuel ih =>
    cases queue with
    | nil => simp [explore]
    | cons x queue =>
      refine List.IsPrefix.trans ?_ (ih (done ++ [x]) _)
      exact ⟨fresh (done ++ x :: queue) (next x), by simp⟩

theorem nodup_expand (next : α → List α) {done queue : List α} {x : α}
    (h : (done ++ x :: queue).Nodup) :
    (done ++ [x] ++ (queue ++ fresh (done ++ x :: queue) (next x))).Nodup := by
  rw [← List.append_assoc, List.append_assoc done, List.singleton_append]
  refine List.nodup_append.2 ⟨h, nodup_fresh _ _, fun a ha b hb e => ?_⟩
  exact ((mem_fresh _ _ _).1 hb).2 (e ▸ ha)

theorem nodup_explore (next : α → List α) (fuel : Nat) (done queue : List α)
    (h : (done ++ queue).Nodup) : (explore next fuel done queue).Nodup := by
  induction fuel generalizing done queue with
  | zero => exact h
  | succ fuel ih =>
    cases queue with
    | nil => simpa [explore] using h
    | cons x queue => exact ih _ _ (nodup_expand next h)

end RightLinear
