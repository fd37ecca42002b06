import Mathlib.Data.List.Forall2
import RightLinear.Traced.Basic

namespace RightLinear.Results

variable {ε α β γ : Type}

theorem bind_eq_ok_iff {x : Except ε α} {f : α → Except ε β} {b : β} :
    x.bind f = .ok b ↔ ∃ a, x = .ok a ∧ f a = .ok b := by
  cases x <;> simp [Except.bind]

theorem map_eq_ok_iff {x : Except ε α} {f : α → β} {b : β} :
    x.map f = .ok b ↔ ∃ a, x = .ok a ∧ f a = b := by
  cases x <;> simp [Except.map]

theorem map_mapError {ε' : Type} (x : Except ε α) (f : ε → ε') (g : α → β) :
    (x.mapError f).map g = (x.map g).mapError f := by
  cases x <;> rfl

theorem mapM_cons_eq_ok_iff {f : α → Except ε β} {x : α} {xs : List α} {ys : List β} :
    (x :: xs).mapM f = .ok ys ↔ ∃ z zs, f x = .ok z ∧ xs.mapM f = .ok zs ∧ z :: zs = ys := by
  rw [List.mapM_cons]
  cases f x with
  | error e => simp [bind, Except.bind]
  | ok z => cases xs.mapM f <;> simp [bind, Except.bind, pure, Except.pure]

theorem forall₂ {f : α → Except ε β} {xs : List α} {ys : List β} (h : xs.mapM f = .ok ys) :
    List.Forall₂ (fun x y => f x = .ok y) xs ys := by
  induction xs generalizing ys with
  | nil =>
    obtain rfl := Except.ok.inj h
    exact .nil
  | cons x xs ih =>
    obtain ⟨z, zs, first, rest, rfl⟩ := mapM_cons_eq_ok_iff.mp h
    exact .cons first (ih rest)

theorem mem_iff {f : α → Except ε β} {xs : List α} {ys : List β} (h : xs.mapM f = .ok ys) {y : β} :
    y ∈ ys ↔ ∃ x ∈ xs, f x = .ok y := by
  induction xs generalizing ys with
  | nil =>
    obtain rfl := Except.ok.inj h
    simp
  | cons x xs ih =>
    obtain ⟨z, zs, first, rest, rfl⟩ := mapM_cons_eq_ok_iff.mp h
    rw [List.mem_cons, List.exists_mem_cons_iff, ih rest, first, Except.ok.injEq, eq_comm]

theorem exists_mapM_eq_ok_iff {f : α → Except ε β} {xs : List α} :
    (∃ ys, xs.mapM f = .ok ys) ↔ ∀ x ∈ xs, ∃ y, f x = .ok y := by
  induction xs with
  | nil => exact ⟨fun _ => by simp, fun _ => ⟨[], rfl⟩⟩
  | cons x xs ih =>
    rw [List.forall_mem_cons, ← ih]
    simp only [mapM_cons_eq_ok_iff]
    constructor
    · intro h
      obtain ⟨_, z, zs, first, rest, _⟩ := h
      exact ⟨⟨z, first⟩, zs, rest⟩
    · intro h
      obtain ⟨⟨z, first⟩, zs, rest⟩ := h
      exact ⟨z :: zs, z, zs, first, rest, rfl⟩

theorem foldlM_cons_eq_ok_iff {f : β → α → Except ε β} {x : α} {xs : List α} {b b' : β} :
    (x :: xs).foldlM f b = .ok b' ↔ ∃ y, f b x = .ok y ∧ xs.foldlM f y = .ok b' := by
  rw [List.foldlM_cons]
  exact bind_eq_ok_iff

theorem foldlM_append_eq_ok_iff {f : β → α → Except ε β} {xs ys : List α} {b b' : β} :
    (xs ++ ys).foldlM f b = .ok b' ↔ ∃ y, xs.foldlM f b = .ok y ∧ ys.foldlM f y = .ok b' := by
  rw [List.foldlM_append]
  exact bind_eq_ok_iff

/-- What every step keeps, a fold over a list keeps. -/
theorem foldlM_invariant {f : β → α → Except ε β} {P : β → Prop} {xs : List α} {b b' : β}
    (hb : P b) (step : ∀ x ∈ xs, ∀ y y', P y → f y x = .ok y' → P y')
    (h : xs.foldlM f b = .ok b') : P b' := by
  induction xs generalizing b with
  | nil =>
    obtain rfl := Except.ok.inj h
    exact hb
  | cons x xs ih =>
    obtain ⟨first, rest⟩ := List.forall_mem_cons.mp step
    obtain ⟨y, hy, h⟩ := foldlM_cons_eq_ok_iff.mp h
    exact ih (first b y hb hy) rest h

/-- The parts of a list are read one after another, and each of them yields something.  `P` says
where the parts and the yield so far have led to. -/
theorem exists_forall₂_of_foldlM_flatten {f : β → α → Except ε β}
    {P : List (List α) → List γ → β → Prop} {Q : List α → γ → Prop} {parts : List (List α)}
    (step : ∀ part ∈ parts, ∀ before done b b', P before done b → part.foldlM f b = .ok b' →
      ∃ y, Q part y ∧ P (before ++ [part]) (done ++ [y]) b')
    (before : List (List α)) (done : List γ) {b b' : β} (here : P before done b)
    (run : parts.flatten.foldlM f b = .ok b') :
    ∃ ys, List.Forall₂ Q parts ys ∧ P (before ++ parts) (done ++ ys) b' := by
  induction parts generalizing before done b with
  | nil =>
    obtain rfl := Except.ok.inj run
    exact ⟨[], .nil, by simpa using here⟩
  | cons part parts ih =>
    obtain ⟨first, rest⟩ := List.forall_mem_cons.mp step
    rw [List.flatten_cons] at run
    obtain ⟨c, run, later⟩ := foldlM_append_eq_ok_iff.mp run
    obtain ⟨y, made, there⟩ := first before done b c here run
    obtain ⟨ys, others, last⟩ := ih rest _ _ there later
    exact ⟨y :: ys, .cons made others, by simpa using last⟩

theorem exists_foldlM_flatten_of_forall₂ {f : β → α → Except ε β}
    {P : List (List α) → List γ → β → Prop} {Q : List α → γ → Prop} {parts : List (List α)}
    {ys : List γ}
    (step : ∀ part y, Q part y → ∀ before done b, P before done b →
      ∃ b', part.foldlM f b = .ok b' ∧ P (before ++ [part]) (done ++ [y]) b')
    (all : List.Forall₂ Q parts ys) (before : List (List α)) (done : List γ) {b : β}
    (here : P before done b) :
    ∃ b', parts.flatten.foldlM f b = .ok b' ∧ P (before ++ parts) (done ++ ys) b' := by
  induction all generalizing before done b with
  | nil => exact ⟨b, rfl, by simpa using here⟩
  | @cons part y parts ys first _ ih =>
    obtain ⟨c, run, there⟩ := step part y first before done b here
    obtain ⟨b', later, last⟩ := ih _ _ there
    refine ⟨b', ?_, by simpa using last⟩
    rw [List.flatten_cons]
    exact foldlM_append_eq_ok_iff.mpr ⟨c, run, later⟩

section Failures

variable {e : ε}

theorem bind_eq_error_iff {x : Except ε α} {f : α → Except ε β} :
    x.bind f = .error e ↔ x = .error e ∨ ∃ a, x = .ok a ∧ f a = .error e := by
  cases x <;> simp [Except.bind]

theorem map_eq_error_iff {x : Except ε α} {f : α → β} : x.map f = .error e ↔ x = .error e := by
  cases x <;> simp [Except.map]

theorem exists_eq_ok_iff {x : Except ε α} : (∃ a, x = .ok a) ↔ ∀ e, x ≠ .error e := by
  cases x <;> simp

/-- Of the members of the list with the property, this one comes first. -/
def IsFirst (P : α → Prop) (xs : List α) (x : α) : Prop :=
  ∃ before after, xs = before ++ x :: after ∧ (∀ y ∈ before, ¬P y) ∧ P x

theorem not_isFirst_nil {P : α → Prop} {x : α} : ¬IsFirst P [] x := by
  intro h
  obtain ⟨before, after, eq, _⟩ := h
  simp at eq

theorem isFirst_cons_iff {P : α → Prop} {x y : α} {xs : List α} :
    IsFirst P (y :: xs) x ↔ P y ∧ y = x ∨ ¬P y ∧ IsFirst P xs x := by
  constructor
  · intro h
    obtain ⟨before, after, eq, earlier, this⟩ := h
    cases before with
    | nil =>
      obtain ⟨rfl, _⟩ := List.cons.inj eq
      exact Or.inl ⟨this, rfl⟩
    | cons z before =>
      obtain ⟨rfl, rest⟩ := List.cons.inj eq
      obtain ⟨passed, earlier⟩ := List.forall_mem_cons.mp earlier
      exact Or.inr ⟨passed, before, after, rest, earlier, this⟩
  · intro h
    rcases h with ⟨this, rfl⟩ | ⟨passed, before, after, rfl, earlier, this⟩
    · exact ⟨[], xs, rfl, by simp, this⟩
    · exact ⟨y :: before, after, rfl, List.forall_mem_cons.mpr ⟨passed, earlier⟩, this⟩

theorem IsFirst.mem {P : α → Prop} {xs : List α} {x : α} (h : IsFirst P xs x) : x ∈ xs := by
  obtain ⟨before, after, rfl, _⟩ := h
  exact List.mem_append_right before List.mem_cons_self

theorem IsFirst.holds {P : α → Prop} {xs : List α} {x : α} (h : IsFirst P xs x) : P x := by
  obtain ⟨_, _, _, _, this⟩ := h
  exact this

theorem mapM_cons (f : α → Except ε β) (x : α) (xs : List α) :
    (x :: xs).mapM f = (f x).bind fun y => (xs.mapM f).map fun ys => y :: ys := by
  rw [List.mapM_cons]
  rfl

/-- A list of computations fails as the first of them that does. -/
theorem mapM_eq_error_iff {f : α → Except ε β} {xs : List α} :
    xs.mapM f = .error e ↔ ∃ x, IsFirst (fun x => ∃ e, f x = .error e) xs x ∧ f x = .error e := by
  induction xs with
  | nil => simp [not_isFirst_nil, pure, Except.pure]
  | cons x xs ih =>
    rw [mapM_cons, bind_eq_error_iff]
    simp only [map_eq_error_iff, ih, isFirst_cons_iff]
    cases first : f x with
    | error e' => simp [first]
    | ok y => simp

theorem mapM_eq_error_iff_of_blame {f : α → Except ε β} {P : α → Prop} {blame : α → ε}
    (fails : ∀ x e, f x = .error e ↔ P x ∧ blame x = e) {xs : List α} :
    xs.mapM f = .error e ↔ ∃ x, IsFirst P xs x ∧ blame x = e := by
  have unblamed : (fun x => ∃ e, P x ∧ blame x = e) = P := by simp
  simp only [mapM_eq_error_iff, fails, unblamed]
  constructor
  · intro h
    obtain ⟨x, first, _, blamed⟩ := h
    exact ⟨x, first, blamed⟩
  · intro h
    obtain ⟨x, first, blamed⟩ := h
    exact ⟨x, first, first.holds, blamed⟩

end Failures

end RightLinear.Results

namespace RightLinear.Traced

variable {α β : Type}

theorem result_mapM (f : α → Traced β) (xs : List α) :
    (xs.mapM f).result = xs.mapM fun x => (f x).result := by
  induction xs with
  | nil => rfl
  | cons x xs ih =>
    simp only [List.mapM_cons, result_bind, result_pure, ih]
    rfl

end RightLinear.Traced
