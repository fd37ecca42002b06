import RightLinear.Config
import RightLinear.Symbol

namespace RightLinear

structure Rule where
  lhs : Symbol
  rhs : String
  deriving DecidableEq, Repr

/-- A right-linear grammar.  Rules keep their order and may be repeated. -/
structure Grammar where
  name : String := ""
  alphabet : SymbolSet := ∅
  vars : SymbolSet := ∅
  start : Option Symbol := none
  rules : List Rule := []
  deriving DecidableEq

inductive Production
  | empty
  | terminal (a : Symbol)
  | step (a next : Symbol)
  deriving DecidableEq, Repr

namespace Grammar

/-- The meaning of a right-hand side.  A spelling of the empty word is that before anything else. -/
def production? (g : Grammar) (c : Config) (rhs : String) : Option Production :=
  if c.isEpsilon rhs then some .empty
  else match rhs.toList with
    | [a] => if a ∈ g.alphabet then some (.terminal a) else none
    | [a, v] => if a ∈ g.alphabet ∧ v ∈ g.vars then some (.step a v) else none
    | _ => none

end Grammar

end RightLinear
