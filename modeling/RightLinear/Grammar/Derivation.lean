import RightLinear.Grammar.Basic

namespace RightLinear

/-- What is read for a terminal: the terminal itself, or nothing when it is the silent label. -/
def terminalWord (a : Symbol) : Word := if a.isEpsilon then [] else [a]

namespace Grammar

/-- The right-hand side is a spelling of the empty word, or else a declared terminal, alone or
before a declared variable. -/
def Spells (g : Grammar) (c : Config) (rhs : String) : Production → Prop
  | .empty => rhs ∈ c.epsilonSpellings
  | .terminal a => rhs ∉ c.epsilonSpellings ∧ rhs.toList = [a] ∧ a ∈ g.alphabet
  | .step a x => rhs ∉ c.epsilonSpellings ∧ rhs.toList = [a, x] ∧ a ∈ g.alphabet ∧ x ∈ g.vars

/-- The variable derives the word by rules of the grammar. -/
inductive Derives (g : Grammar) (c : Config) : Symbol → Word → Prop
  | empty {v : Symbol} {rhs : String} : ⟨v, rhs⟩ ∈ g.rules → g.Spells c rhs .empty →
      Derives g c v []
  | terminal {v a : Symbol} {rhs : String} : ⟨v, rhs⟩ ∈ g.rules → g.Spells c rhs (.terminal a) →
      Derives g c v (terminalWord a)
  | step {v a x : Symbol} {rhs : String} {w : Word} : ⟨v, rhs⟩ ∈ g.rules →
      g.Spells c rhs (.step a x) → Derives g c x w → Derives g c v (terminalWord a ++ w)

def Generates (g : Grammar) (c : Config) (w : Word) : Prop :=
  ∃ s, g.start = some s ∧ g.Derives c s w

/-- The classification of a right-hand side finds what it spells. -/
theorem production?_eq_some_iff {g : Grammar} {c : Config} {rhs : String} {p : Production} :
    g.production? c rhs = some p ↔ g.Spells c rhs p := by
  by_cases spelled : rhs ∈ c.epsilonSpellings
  · cases p <;> simp [production?, Config.isEpsilon, Spells, spelled]
  · match shape : rhs.toList with
    | [] => cases p <;> simp [production?, Config.isEpsilon, Spells, spelled, shape]
    | [b] => cases p <;> simp [production?, Config.isEpsilon, Spells, spelled, shape]; grind
    | [b, y] => cases p <;> simp [production?, Config.isEpsilon, Spells, spelled, shape]; grind
    | _ :: _ :: _ :: _ => cases p <;> simp [production?, Config.isEpsilon, Spells, spelled, shape]

end Grammar

end RightLinear
