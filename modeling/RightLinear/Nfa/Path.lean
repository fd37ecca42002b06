import RightLinear.Nfa.Basic

namespace RightLinear.Nfa

/-- A sequence of moves from one state to another that reads the given word. -/
inductive Path (n : Nfa) : StateId → Word → StateId → Prop
  | nil (q : StateId) : Path n q [] q
  | silent {p q r : StateId} {w : Word} :
      ⟨p, Symbol.epsilon, q⟩ ∈ n.edges → Path n q w r → Path n p w r
  | read {p q r : StateId} {a : Symbol} {w : Word} :
      a ≠ Symbol.epsilon → ⟨p, a, q⟩ ∈ n.edges → Path n q w r → Path n p (a :: w) r

theorem Path.append {n : Nfa} {p q r : StateId} {v w : Word} (h : n.Path p v q)
    (k : n.Path q w r) : n.Path p (v ++ w) r := by
  induction h with
  | nil => exact k
  | silent he _ ih => exact .silent he (ih k)
  | read ha he _ ih => exact .read ha he (ih k)

/-- Some path from the start reads the word and ends in an accepting state. -/
def Recognizes (n : Nfa) (w : Word) : Prop :=
  ∃ p q, n.start = some p ∧ n.Path p w q ∧ q ∈ n.accepting

end RightLinear.Nfa
