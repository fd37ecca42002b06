import RightLinear.Dfa.Numbering
import RightLinear.Error
import RightLinear.Explore

namespace RightLinear

inductive Connective
  | either
  | both
  deriving DecidableEq, Repr

namespace Connective

def combine : Connective → Bool → Bool → Bool
  | either, x, y => x || y
  | both, x, y => x && y

def name : Connective → String
  | either => "Either"
  | both => "Both"

end Connective

/-- A state of each side, or `none` for a side that has fallen silent. -/
abbrev StatePair := Option StateId × Option StateId

namespace Dfa

def nextPair (l r : Dfa) (p : StatePair) (a : Symbol) : StatePair :=
  (p.1.bind fun q => l.next? q a, p.2.bind fun q => r.next? q a)

def acceptsPair (c : Connective) (l r : Dfa) (p : StatePair) : Bool :=
  c.combine (p.1.any l.isAccepting) (p.2.any r.isAccepting)

/-- The pairs that words lead to, in the order of their discovery.  A side is in its start state,
in a target of its table or silent, which bounds the search. -/
def pairs (l r : Dfa) : List StatePair :=
  explore (fun p => l.alphabet.toList.map fun a => nextPair l r p a)
    ((l.table.size + 2) * (r.table.size + 2)) [] [(some l.start, some r.start)]

def pairAutomaton (c : Connective) (l r : Dfa) : Dfa :=
  .ofStates l.alphabet (pairs l r) (nextPair l r) (acceptsPair c l r) none

/-- The automaton on pairs of states.  Both sides have to read the same alphabet. -/
def product (c : Connective) (l r : Dfa) : Except Error Dfa :=
  if l.alphabet = r.alphabet then .ok (pairAutomaton c l r)
  else .error (.alphabetMismatch l.alphabet r.alphabet)

end Dfa

end RightLinear
