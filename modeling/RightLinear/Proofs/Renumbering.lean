import Mathlib.Logic.Relator
import RightLinear.Proofs.Lockstep
import RightLinear.Proofs.SubsetConstruction

namespace RightLinear

open List Relator

section OptionRel

variable {α β : Type} {R : α → β → Prop} {x : Option α} {y : Option β}

theorem optionRel_flip (h : Option.Rel R x y) : Option.Rel (flip R) y x := by
  cases h with
  | some both => exact .some both
  | none => exact .none

theorem isNone_eq_of_optionRel (h : Option.Rel R x y) : x.isNone = y.isNone := by
  cases h <;> rfl

theorem biUnique_flip (unique : BiUnique R) : BiUnique (flip R) :=
  ⟨fun _ _ _ h h' => unique.2 h h', fun _ _ _ h h' => unique.1 h h'⟩

theorem leftUnique_optionRel (unique : LeftUnique R) : LeftUnique (Option.Rel R) := by
  intro x x' y h h'
  cases h with
  | some both => cases h' with | some both' => exact congrArg some (unique both both')
  | none => cases h'; rfl

theorem biUnique_optionRel (unique : BiUnique R) : BiUnique (Option.Rel R) :=
  ⟨leftUnique_optionRel unique.1, fun _ _ _ h h' =>
    leftUnique_optionRel (biUnique_flip unique).1 (optionRel_flip h) (optionRel_flip h')⟩

theorem any_eq_of_forall₂ {f : α → Bool} {g : β → Bool} (agree : ∀ x y, R x y → f x = g y)
    {xs : List α} {ys : List β} (h : Forall₂ R xs ys) : xs.any f = ys.any g := by
  induction h with
  | nil => rfl
  | cons first _ ih => rw [any_cons, any_cons, agree _ _ first, ih]

end OptionRel

variable {R : StateId → StateId → Prop}

/-- The sets hold the same states, by the numbers of either side. -/
structure StateSet.Matches (R : StateId → StateId → Prop) (s t : StateSet) : Prop where
  forth : ∀ p ∈ s, ∃ q ∈ t, R p q
  back : ∀ q ∈ t, ∃ p ∈ s, R p q

namespace StateSet

variable {s t u : StateSet}

theorem Matches.symm (h : Matches R s t) : Matches (flip R) t s := ⟨h.back, h.forth⟩

theorem Matches.isEmpty_eq (h : Matches R s t) : s.isEmpty = t.isEmpty := by
  have onward {R : StateId → StateId → Prop} {s t : StateSet} (h : Matches R s t) (empty : t = ∅) :
      s = ∅ := by
    apply Std.ExtTreeSet.eq_empty_iff_forall_not_mem.mpr
    intro p hp
    obtain ⟨q, hq, _⟩ := h.forth p hp
    exact Std.ExtTreeSet.not_mem_empty (empty ▸ hq)
  rw [Bool.eq_iff_iff, Std.ExtTreeSet.isEmpty_iff, Std.ExtTreeSet.isEmpty_iff]
  exact ⟨onward h.symm, onward h⟩

theorem Matches.eq_of_left (unique : LeftUnique R) (h : Matches R s u) (h' : Matches R t u) :
    s = t := by
  have onward {s t : StateSet} (h : Matches R s u) (h' : Matches R t u) : ∀ p ∈ s, p ∈ t := by
    intro p hp
    obtain ⟨q, hq, pq⟩ := h.forth p hp
    obtain ⟨p', hp', pq'⟩ := h'.back q hq
    exact unique pq pq' ▸ hp'
  exact Std.ExtTreeSet.ext_mem fun p => ⟨onward h h' p, onward h' h p⟩

theorem biUnique_matches (unique : BiUnique R) : BiUnique (Matches R) :=
  ⟨fun _ _ _ h h' => h.eq_of_left unique.1 h',
    fun _ _ _ h h' => h.symm.eq_of_left (biUnique_flip unique).1 h'.symm⟩

theorem matches_start {x y : Option StateId} (h : Option.Rel R x y) :
    Matches R (x.elim ∅ fun q => {q}) (y.elim ∅ fun q => {q}) := by
  cases h with
  | some both => exact ⟨by simpa using both, by simpa using both⟩
  | none => exact ⟨by simp, by simp⟩

end StateSet

namespace Nfa

variable {n m : Nfa} {s t : StateSet} {p p' q : StateId} {a : Symbol}
  {w : Word}

/-- The automata are the same but for the numbers of states, which `R` pairs.  States that no path
from a paired state leads to are free. -/
structure Renumbers (R : StateId → StateId → Prop) (n m : Nfa) : Prop where
  unique : BiUnique R
  alphabet_eq : n.alphabet = m.alphabet
  start : Option.Rel R n.start m.start
  forth : ∀ p p' a q, R p p' → ⟨p, a, q⟩ ∈ n.edges → ∃ q', R q q' ∧ ⟨p', a, q'⟩ ∈ m.edges
  back : ∀ p p' a q', R p p' → ⟨p', a, q'⟩ ∈ m.edges → ∃ q, R q q' ∧ ⟨p, a, q⟩ ∈ n.edges
  accepting : ∀ p p', R p p' → (p ∈ n.accepting ↔ p' ∈ m.accepting)

namespace Renumbers

theorem symm (h : Renumbers R n m) : Renumbers (flip R) m n where
  unique := biUnique_flip h.unique
  alphabet_eq := h.alphabet_eq.symm
  start := optionRel_flip h.start
  forth p p' a q := h.back p' p a q
  back p p' a q := h.forth p' p a q
  accepting p p' both := (h.accepting p' p both).symm

theorem path (h : Renumbers R n m) (both : R p p') (path : n.Path p w q) :
    ∃ q', R q q' ∧ m.Path p' w q' := by
  induction path generalizing p' with
  | nil => exact ⟨p', both, .nil p'⟩
  | silent he _ ih =>
    obtain ⟨r, both, he⟩ := h.forth _ _ _ _ both he
    obtain ⟨q', both, rest⟩ := ih both
    exact ⟨q', both, .silent he rest⟩
  | read ha he _ ih =>
    obtain ⟨r, both, he⟩ := h.forth _ _ _ _ both he
    obtain ⟨q', both, rest⟩ := ih both
    exact ⟨q', both, .read ha he rest⟩

theorem image (h : Renumbers R n m) (hs : s.Matches R t) (a : Symbol) :
    (n.image s a).Matches R (m.image t a) := by
  have onward {R : StateId → StateId → Prop} {n m : Nfa} {s t : StateSet} (h : Renumbers R n m)
      (hs : s.Matches R t) : ∀ q ∈ n.image s a, ∃ q' ∈ m.image t a, R q q' := by
    intro q hq
    obtain ⟨p, hp, move⟩ := (n.mem_image _ _ _).mp hq
    obtain ⟨p', hp', both⟩ := hs.forth p hp
    obtain ⟨q', both, move⟩ := h.forth _ _ _ _ both move
    exact ⟨q', (m.mem_image _ _ _).mpr ⟨p', hp', move⟩, both⟩
  exact ⟨onward h hs, onward h.symm hs.symm⟩

theorem closure (h : Renumbers R n m) (hs : s.Matches R t) :
    (n.closure s).Matches R (m.closure t) := by
  have onward {R : StateId → StateId → Prop} {n m : Nfa} {s t : StateSet} (h : Renumbers R n m)
      (hs : s.Matches R t) : ∀ q ∈ n.closure s, ∃ q' ∈ m.closure t, R q q' := by
    intro q hq
    obtain ⟨p, hp, silent⟩ := mem_closure_iff.mp hq
    obtain ⟨p', hp', both⟩ := hs.forth p hp
    obtain ⟨q', both, silent⟩ := h.path both silent
    exact ⟨q', mem_closure_iff.mpr ⟨p', hp', silent⟩, both⟩
  exact ⟨onward h hs, onward h.symm hs.symm⟩

theorem initial (h : Renumbers R n m) : n.initial.Matches R m.initial :=
  h.closure (StateSet.matches_start h.start)

theorem meets_eq (h : Renumbers R n m) (hs : s.Matches R t) :
    s.meets n.accepting = t.meets m.accepting := by
  have onward {R : StateId → StateId → Prop} {n m : Nfa} {s t : StateSet} (h : Renumbers R n m)
      (hs : s.Matches R t) (final : s.meets n.accepting = true) : t.meets m.accepting = true := by
    obtain ⟨p, hp, final⟩ := (StateSet.meets_iff _ _).mp final
    obtain ⟨p', hp', both⟩ := hs.forth p hp
    exact (StateSet.meets_iff _ _).mpr ⟨p', hp', (h.accepting p p' both).mp final⟩
  rw [Bool.eq_iff_iff]
  exact ⟨onward h hs, onward h.symm hs.symm⟩

theorem follow? (h : Renumbers R n m) (hs : s.Matches R t) (a : Symbol) :
    Option.Rel (StateSet.Matches R) (n.follow? s a) (m.follow? t a) := by
  have moved := h.image hs a
  have same : (n.image s a).isEmpty = (m.image t a).isEmpty := moved.isEmpty_eq
  rw [Nfa.follow?, Nfa.follow?, same]
  split
  · exact .none
  · exact .some (h.closure moved)

theorem followers (h : Renumbers R n m) (hs : s.Matches R t) :
    Forall₂ (StateSet.Matches R) (n.followers s) (m.followers t) := by
  rw [Nfa.followers, Nfa.followers, ← h.alphabet_eq]
  apply rel_filterMap (R := Eq) (P := StateSet.Matches R)
  · intro a b eq
    rw [← eq]
    exact h.follow? hs a
  · exact forall₂_eq_eq_eq ▸ rfl

theorem subsets (h : Renumbers R n m) :
    Forall₂ (StateSet.Matches R) n.subsets m.subsets := by
  have closed (k : Nfa) : ∀ s ∈ k.subsetSpace, ∀ t ∈ k.followers s, t ∈ k.subsetSpace :=
    fun _ _ _ ht => followers_subset_space ht
  have first (k : Nfa) : k.initial ∈ k.subsetSpace := List.mem_cons_self
  exact forall₂_explore (StateSet.biUnique_matches h.unique) (fun _ _ => h.followers) (closed n)
    (closed m) (first n) (first m) n.length_subsetSpace m.length_subsetSpace h.initial

theorem dies_eq (h : Renumbers R n m) : n.dies = m.dies := by
  apply any_eq_of_forall₂ _ h.subsets
  intro s t hs
  rw [← h.alphabet_eq]
  exact congrArg _ (funext fun a => isNone_eq_of_optionRel (h.follow? hs a))

theorem subsetStates (h : Renumbers R n m) :
    Forall₂ (Option.Rel (StateSet.Matches R)) n.subsetStates m.subsetStates := by
  have live : Forall₂ (Option.Rel (StateSet.Matches R)) (n.subsets.map some) (m.subsets.map some) :=
    rel_map (fun _ _ => Option.Rel.some) h.subsets
  rw [Nfa.subsetStates, Nfa.subsetStates, h.dies_eq]
  split
  · exact rel_append live (.cons .none .nil)
  · exact live

theorem determinize_eq (h : Renumbers R n m) : n.determinize = m.determinize := by
  have step : ∀ s t, Option.Rel (StateSet.Matches R) s t → ∀ a ∈ n.alphabet,
      Option.Rel (StateSet.Matches R) (n.subsetNext s a) (m.subsetNext t a) := by
    intro s t both a _
    cases both with
    | none => exact .none
    | some both => exact h.follow? both a
  have agree : ∀ s t, Option.Rel (StateSet.Matches R) s t →
      n.subsetAccepts s = m.subsetAccepts t := by
    intro s t both
    cases both with
    | none => rfl
    | some both => exact h.meets_eq both
  have unique : BiUnique (Option.Rel (StateSet.Matches R)) :=
    biUnique_optionRel (StateSet.biUnique_matches h.unique)
  rw [determinize, determinize, ← h.alphabet_eq, ← h.dies_eq, ← h.subsets.length_eq]
  exact Dfa.ofStates_eq_of_forall₂ unique step agree h.subsetStates _

end Renumbers

end Nfa

end RightLinear
