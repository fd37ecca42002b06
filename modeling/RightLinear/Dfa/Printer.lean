import RightLinear.Config
import RightLinear.Dfa.Basic

namespace RightLinear.Dfa

/-- The written name of a state: its number after the chosen letters, or the name kept for the dead
state. -/
def stateName (d : Dfa) (c : Config) (q : StateId) : String :=
  if d.dead = some q then c.deadStateName else c.statePrefix ++ q.repr

/-- The states in the order in which they are written: by number, and the dead state last. -/
def writtenStates (d : Dfa) : List StateId :=
  (d.states.filter fun q => d.dead ≠ some q) ++ d.dead.toList

def writtenEdges (d : Dfa) : List Edge :=
  d.writtenStates.flatMap fun q =>
    d.alphabet.toList.filterMap fun a => (d.next? q a).map fun t => ⟨q, a, t⟩

def lines (d : Dfa) (c : Config) : List String :=
  ["# States", " ".intercalate (d.writtenStates.map (d.stateName c)),
   "# Alphabet", " ".intercalate (d.alphabet.toList.map fun a => a.toString),
   "# Start State", d.stateName c d.start,
   "# Final States", " ".intercalate ((d.writtenStates.filter d.isAccepting).map (d.stateName c)),
   "# Transitions"]
  ++ (d.writtenEdges.map fun e =>
        " ".intercalate [d.stateName c e.source, e.label.toString, d.stateName c e.target])
  ++ [""]

def text (d : Dfa) (c : Config) : String := String.join ((d.lines c).map fun l => l ++ "\n")

end RightLinear.Dfa
