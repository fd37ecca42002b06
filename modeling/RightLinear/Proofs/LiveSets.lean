import RightLinear.Proofs.SilentClosure

namespace RightLinear.Nfa

/-- The states that are live once a word has been read from the live states `s`. -/
def liveAfter (n : Nfa) (s : StateSet) (w : Word) : StateSet :=
  w.foldl (fun t a => n.closure (n.image t a)) s

/-- Some path from the start reads the word and ends in the state. -/
def Live (n : Nfa) (w : Word) (q : StateId) : Prop := ∃ p, n.start = some p ∧ n.Path p w q

/-- The word has the silent label after symbols that leave some state live. -/
def Stumbles (n : Nfa) (w : Word) : Prop :=
  ∃ u v, w = u ++ Symbol.epsilon :: v ∧ Symbol.epsilon ∉ u ∧ ∃ q, n.Live u q

variable {n : Nfa}

theorem liveAfter_cons (n : Nfa) (s : StateSet) (a : Symbol) (w : Word) :
    n.liveAfter s (a :: w) = n.liveAfter (n.closure (n.image s a)) w := rfl

theorem image_empty (n : Nfa) (a : Symbol) : n.image ∅ a = ∅ := by
  apply Std.ExtTreeSet.eq_empty_iff_forall_not_mem.mpr
  intro q hq
  obtain ⟨p, hp, _⟩ := (n.mem_image _ _ _).mp hq
  exact Std.ExtTreeSet.not_mem_empty hp

theorem liveAfter_empty (n : Nfa) (w : Word) : n.liveAfter ∅ w = ∅ := by
  induction w with
  | nil => rfl
  | cons a w ih => rw [liveAfter_cons, image_empty, closure_empty, ih]

theorem path_cons_iff {p r : StateId} {a : Symbol} {w : Word} (ha : a ≠ Symbol.epsilon) :
    n.Path p (a :: w) r ↔
      ∃ p' q, n.Path p [] p' ∧ ⟨p', a, q⟩ ∈ n.edges ∧ n.Path q w r := by
  constructor
  · intro path
    generalize hv : a :: w = v at path
    induction path with
    | nil => simp at hv
    | silent he _ ih =>
      obtain ⟨p', q, before, move, rest⟩ := ih hv
      exact ⟨p', q, .silent he before, move, rest⟩
    | read _ he rest _ =>
      obtain ⟨rfl, rfl⟩ := List.cons.inj hv
      exact ⟨_, _, .nil _, he, rest⟩
  · intro h
    obtain ⟨p', q, before, move, rest⟩ := h
    exact before.append (.read ha move rest)

theorem mem_liveAfter_iff {s : StateSet} (hs : n.IsClosed s) {w : Word}
    (hw : Symbol.epsilon ∉ w) {q : StateId} :
    q ∈ n.liveAfter s w ↔ ∃ p ∈ s, n.Path p w q := by
  -- By induction on the word: the closure after each move takes in the silent moves of the
  -- path before the next one.
  induction w generalizing s with
  | nil =>
    constructor
    · intro hq
      exact ⟨q, hq, .nil q⟩
    · intro h
      obtain ⟨p, hp, path⟩ := h
      exact hs p hp q path
  | cons a w ih =>
    obtain ⟨ha, hw⟩ := not_or.mp (fun h => hw (List.mem_cons.mpr h))
    rw [liveAfter_cons, ih (n.isClosed_closure _) hw]
    constructor
    · intro h
      obtain ⟨r, hr, rest⟩ := h
      obtain ⟨t, ht, silent⟩ := mem_closure_iff.mp hr
      obtain ⟨p, hp, move⟩ := (n.mem_image _ _ _).mp ht
      have path : n.Path t w q := silent.append rest
      exact ⟨p, hp, .read (Ne.symm ha) move path⟩
    · intro h
      obtain ⟨p, hp, path⟩ := h
      obtain ⟨p', t, before, move, rest⟩ := (path_cons_iff (Ne.symm ha)).mp path
      have ht : t ∈ n.image s a := (n.mem_image _ _ _).mpr ⟨p', hs p hp p' before, move⟩
      exact ⟨t, mem_closure_iff.mpr ⟨t, ht, .nil t⟩, rest⟩

theorem mem_initial_iff {q : StateId} : q ∈ n.initial ↔ n.Live [] q := by
  rw [initial, mem_closure_iff, Live]
  cases n.start with
  | none => simp
  | some p => simp

theorem isClosed_initial (n : Nfa) : n.IsClosed n.initial := n.isClosed_closure _

theorem mem_liveAfter_initial_iff {w : Word} (hw : Symbol.epsilon ∉ w) {q : StateId} :
    q ∈ n.liveAfter n.initial w ↔ n.Live w q := by
  rw [mem_liveAfter_iff n.isClosed_initial hw]
  constructor
  · intro h
    obtain ⟨r, hr, rest⟩ := h
    obtain ⟨p, hp, silent⟩ := mem_initial_iff.mp hr
    exact ⟨p, hp, silent.append rest⟩
  · intro h
    obtain ⟨p, hp, path⟩ := h
    exact ⟨p, mem_initial_iff.mpr ⟨p, hp, .nil p⟩, path⟩

theorem advance_eq {a : Symbol} (ha : a ≠ Symbol.epsilon) (s : StateSet) :
    n.advance s a = .ok (n.closure (n.image s a)) := by
  have readable : a.isEpsilon = false := by simpa [Symbol.isEpsilon] using ha
  simp [advance, step, readable, Except.map]

theorem acceptsFrom_empty (n : Nfa) (w : Word) : n.acceptsFrom ∅ w = .ok false := by
  cases w with
  | nil => rw [acceptsFrom, StateSet.empty_meets]
  | cons a w => rw [acceptsFrom, if_pos Std.ExtTreeSet.isEmpty_empty]

theorem acceptsFrom_append {u : Word} (hu : Symbol.epsilon ∉ u) (s : StateSet) (v : Word) :
    n.acceptsFrom s (u ++ v) = n.acceptsFrom (n.liveAfter s u) v := by
  -- The exit from an empty set gives the answer that reading on would give.
  induction u generalizing s with
  | nil => rfl
  | cons a u ih =>
    obtain ⟨ha, hu⟩ := not_or.mp (fun h => hu (List.mem_cons.mpr h))
    by_cases dead : s = ∅
    · rw [dead, acceptsFrom_empty, liveAfter_empty, acceptsFrom_empty]
    · have alive : ¬s.isEmpty = true := fun h => dead (Std.ExtTreeSet.isEmpty_iff.mp h)
      rw [List.cons_append, acceptsFrom, if_neg alive, advance_eq (Ne.symm ha), liveAfter_cons,
        ← ih hu]
      rfl

theorem accepts_eq {w : Word} (hw : Symbol.epsilon ∉ w) :
    n.accepts w = .ok ((n.liveAfter n.initial w).meets n.accepting) := by
  have h : n.acceptsFrom n.initial (w ++ []) = _ := acceptsFrom_append hw n.initial []
  rw [List.append_nil] at h
  rw [accepts, h, acceptsFrom]

theorem accepts_append_silent {u : Word} (hu : Symbol.epsilon ∉ u) (v : Word) :
    n.accepts (u ++ Symbol.epsilon :: v) =
      if (n.liveAfter n.initial u).isEmpty then .ok false else .error .silentStep := by
  rw [accepts, acceptsFrom_append hu, acceptsFrom]
  rfl

theorem accepts_of_stumbles {w : Word} (h : n.Stumbles w) :
    n.accepts w = .error .silentStep := by
  obtain ⟨u, v, rfl, hu, q, live⟩ := h
  have alive : ¬(n.liveAfter n.initial u).isEmpty = true := by
    intro empty
    have hq : q ∈ n.liveAfter n.initial u := (mem_liveAfter_initial_iff hu).mpr live
    rw [Std.ExtTreeSet.isEmpty_iff.mp empty] at hq
    exact Std.ExtTreeSet.not_mem_empty hq
  rw [accepts_append_silent hu, if_neg alive]

theorem accepts_of_not_stumbles {w : Word} (h : ¬n.Stumbles w) (hw : Symbol.epsilon ∈ w) :
    n.accepts w = .ok false := by
  -- A word is cut at its first silent label, and nothing is live there.
  obtain ⟨u, v, rfl, hu⟩ := List.eq_append_cons_of_mem hw
  have dead : (n.liveAfter n.initial u).isEmpty = true := by
    rw [Std.ExtTreeSet.isEmpty_iff, Std.ExtTreeSet.eq_empty_iff_forall_not_mem]
    intro q hq
    exact h ⟨u, v, rfl, hu, q, (mem_liveAfter_initial_iff hu).mp hq⟩
  rw [accepts_append_silent hu, if_pos dead]

/-- A word without the silent label is accepted when some path for it ends in an accepting
state. -/
theorem accepts_iff_recognizes {w : Word} (hw : Symbol.epsilon ∉ w) :
    n.accepts w = .ok true ↔ n.Recognizes w := by
  rw [accepts_eq hw, Except.ok.injEq, StateSet.meets_iff]
  constructor
  · intro h
    obtain ⟨q, hq, final⟩ := h
    obtain ⟨p, hp, path⟩ := (mem_liveAfter_initial_iff hw).mp hq
    exact ⟨p, q, hp, path, final⟩
  · intro h
    obtain ⟨p, q, hp, path, final⟩ := h
    exact ⟨q, (mem_liveAfter_initial_iff hw).mpr ⟨p, hp, path⟩, final⟩

end RightLinear.Nfa
