import Std.Data.String.ToNat
import RightLinear.Dfa.Printer
import RightLinear.Proofs.TextLayout

namespace RightLinear

namespace Config

variable {c : Config}

def nameOf (c : Config) : Option StateId → String
  | none => c.deadStateName
  | some q => c.statePrefix ++ q.repr

theorem names_of_valid (valid : c.fault? = none) : Text.isToken c.deadStateName.toList = true ∧
    Text.isToken c.statePrefix.toList = true ∧ c.deadNameCollides = false := by
  simp only [fault?] at valid
  split_ifs at valid with _ _ badName collides
  simp only [Bool.or_eq_true, Bool.not_eq_true', not_or, Bool.not_eq_false] at badName
  exact ⟨badName.1, badName.2, by simpa using collides⟩

theorem isDigit_of_mem_repr {q : Nat} {a : Char} (h : a ∈ q.repr.toList) : a.isDigit = true := by
  rw [Nat.toList_repr] at h
  exact Nat.isDigit_of_mem_toDigits (by decide) (by decide) h

theorem repr_ne_nil (q : Nat) : q.repr.toList ≠ [] := by
  rw [Nat.toList_repr]
  exact Nat.toDigits_ne_nil

theorem isToken_nameOf (valid : c.fault? = none) (q : Option StateId) :
    Text.isToken (c.nameOf q).toList = true := by
  obtain ⟨dead, numbered, _⟩ := names_of_valid valid
  cases q with
  | none => exact dead
  | some q =>
    rw [nameOf, String.toList_append]
    apply Text.isToken_append numbered
    intro a ha
    exact Text.not_isBlank_of_isDigit a (isDigit_of_mem_repr ha)

theorem deadStateName_ne (valid : c.fault? = none) (q : StateId) :
    c.deadStateName ≠ c.statePrefix ++ q.repr := by
  intro eq
  obtain ⟨_, _, collides⟩ := names_of_valid valid
  have rest : c.statePrefix.toList.isPrefixOf? c.deadStateName.toList = some q.repr.toList := by
    rw [eq, String.toList_append]
    exact List.isPrefixOf?_eq_some_iff_append_eq.mpr rfl
  have nonempty : q.repr.toList.isEmpty = false := List.isEmpty_eq_false_iff.mpr (repr_ne_nil q)
  have digits : q.repr.toList.all Char.isDigit = true :=
    List.all_eq_true.mpr fun a ha => isDigit_of_mem_repr ha
  simp only [deadNameCollides, rest, nonempty, digits] at collides
  exact Bool.noConfusion collides

theorem nameOf_injective (valid : c.fault? = none) : Function.Injective c.nameOf := by
  intro p q h
  cases p with
  | none =>
    cases q with
    | none => rfl
    | some q => exact absurd h (deadStateName_ne valid q)
  | some p =>
    cases q with
    | none => exact absurd h.symm (deadStateName_ne valid p)
    | some q =>
      have number : p.repr = q.repr := (String.append_right_inj c.statePrefix).mp h
      exact congrArg some (Nat.repr_injective number)

end Config

namespace Dfa

variable {c : Config} {d : Dfa} {p q : StateId}

/-- What the name of a state tells: its number, or that it is the dead state. -/
def shown (d : Dfa) (q : StateId) : Option StateId := if d.dead = some q then none else some q

theorem stateName_eq (d : Dfa) (c : Config) (q : StateId) :
    d.stateName c q = c.nameOf (d.shown q) := by
  by_cases h : d.dead = some q <;> simp [stateName, shown, h, Config.nameOf]

theorem shown_injective (d : Dfa) : Function.Injective d.shown := by
  intro p q h
  by_cases hp : d.dead = some p
  · by_cases hq : d.dead = some q
    · exact Option.some.inj (hp.symm.trans hq)
    · rw [shown, shown, if_pos hp, if_neg hq] at h
      cases h
  · by_cases hq : d.dead = some q
    · rw [shown, shown, if_neg hp, if_pos hq] at h
      cases h
    · rw [shown, shown, if_neg hp, if_neg hq] at h
      exact Option.some.inj h

theorem isToken_stateName (valid : c.fault? = none) (d : Dfa) (q : StateId) :
    Text.isToken (d.stateName c q).toList = true := by
  rw [stateName_eq]
  exact Config.isToken_nameOf valid _

theorem stateName_injective (valid : c.fault? = none) (d : Dfa) :
    Function.Injective (d.stateName c) := by
  intro p q h
  rw [stateName_eq, stateName_eq] at h
  exact d.shown_injective (Config.nameOf_injective valid h)

/-- Under a configuration without fault the states of an automaton can be told apart by their names
wherever these stand between blanks. -/
theorem state_names_apart (valid : c.fault? = none) (d : Dfa) :
    (∀ p q, p ≠ q → d.stateName c p ≠ d.stateName c q) ∧
    ∀ q, d.stateName c q ≠ "" ∧ ∀ a ∈ (d.stateName c q).toList, Text.isBlank a = false := by
  refine ⟨fun p q other same => other (stateName_injective valid d same), ?_⟩
  intro q
  obtain ⟨nonempty, plain⟩ := Text.isToken_iff.mp (isToken_stateName valid d q)
  refine ⟨?_, plain⟩
  intro empty
  rw [empty] at nonempty
  exact nonempty rfl

/-- The name of the dead state goes on behind the chosen letters with a digit that no number is
written with. -/
def arabicDigit : Config := { statePrefix := "q1", deadStateName := "q1٢" }

def deadBetween : Dfa where
  numStates := 13
  start := 0
  dead := some 2
  alphabet := ∅
  table := ∅
  accepting := ∅

theorem state_names_apart_arabicDigit : arabicDigit.fault? = none ∧ (2 : StateId) ≠ 12 ∧
    deadBetween.stateName arabicDigit 2 = "q1٢" ∧ deadBetween.stateName arabicDigit 12 = "q112" ∧
    deadBetween.stateName arabicDigit 2 ≠ deadBetween.stateName arabicDigit 12 ∧
    (deadBetween.stateName arabicDigit 2 ≠ "" ∧
      ∀ a ∈ (deadBetween.stateName arabicDigit 2).toList, Text.isBlank a = false) := by
  have valid : arabicDigit.fault? = none := by decide +kernel
  have ⟨apart, words⟩ := state_names_apart valid deadBetween
  exact ⟨valid, by decide, by decide +kernel, by decide +kernel, apart 2 12 (by decide), words 2⟩

end Dfa

end RightLinear
