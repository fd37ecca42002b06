import RightLinear.Dfa.Product

namespace RightLinear

/-- Combines one or more operands from the left. -/
def foldOperands {m : Type → Type} {α : Type} [Monad m] [MonadExcept Error m]
    (combine : α → α → m α) : List α → m α
  | [] => throw .noOperands
  | x :: xs => xs.foldlM combine x

namespace Dfa

/-- Exchanges accepting and rejecting states.  Where a move is missing the word stays rejected. -/
def complement (d : Dfa) : Dfa := { d with accepting := StateSet.full d.numStates \ d.accepting }

def union (l r : Dfa) : Except Error Dfa := product .either l r

def intersection (l r : Dfa) : Except Error Dfa := product .both l r

def unionAll (ds : List Dfa) : Except Error Dfa := foldOperands union ds

def intersectionAll (ds : List Dfa) : Except Error Dfa := foldOperands intersection ds

/-- Whether no state accepts.  Of an automaton whose states can all be reached, this says that its
language is empty. -/
def noneAccepting (d : Dfa) : Bool := d.accepting.isEmpty

end Dfa

end RightLinear
