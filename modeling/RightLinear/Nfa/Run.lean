import RightLinear.Explore
import RightLinear.Misuse
import RightLinear.Nfa.Basic

namespace RightLinear.Nfa

def silentTargets (n : Nfa) (q : StateId) : List StateId := (n.image {q} Symbol.epsilon).toList

/-- The states that silent moves lead to from `s`, with `s` itself.  Each of them is in `s` or the
target of a move, which bounds the search. -/
def closure (n : Nfa) (s : StateSet) : StateSet :=
  .ofList (explore n.silentTargets (s.size + n.edges.size) [] s.toList)

/-- The states a run may be in before anything is read. -/
def initial (n : Nfa) : StateSet := n.closure (n.start.elim ∅ fun q => {q})

/-- The states a run may be in once `a` is read, unless no move reads it. -/
def follow? (n : Nfa) (s : StateSet) (a : Symbol) : Option StateSet :=
  let t := n.image s a
  if t.isEmpty then none else some (n.closure t)

def step (n : Nfa) (s : StateSet) (a : Symbol) : Except Misuse StateSet :=
  if a.isEpsilon then .error .silentStep else .ok (n.image s a)

def advance (n : Nfa) (s : StateSet) (a : Symbol) : Except Misuse StateSet :=
  (n.step s a).map n.closure

/-- Acceptance from a set of live states.  Once no state is live, nothing more is looked at. -/
def acceptsFrom (n : Nfa) : StateSet → Word → Except Misuse Bool
  | s, [] => .ok (s.meets n.accepting)
  | s, a :: w =>
    if s.isEmpty then .ok false
    else (n.advance s a).bind fun t => n.acceptsFrom t w

def accepts (n : Nfa) (w : Word) : Except Misuse Bool := n.acceptsFrom n.initial w

end RightLinear.Nfa
