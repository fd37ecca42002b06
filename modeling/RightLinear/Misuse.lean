namespace RightLinear

inductive Misuse
  /-- A set of states was asked to read the silent label. -/
  | silentStep
  /-- A silent move was offered to a deterministic automaton. -/
  | silentEdge
  deriving DecidableEq, Repr

def Misuse.message : Misuse → String
  | .silentStep => "use epsilon_closure for epsilon moves"
  | .silentEdge => "a DFA has no epsilon transitions"

end RightLinear
