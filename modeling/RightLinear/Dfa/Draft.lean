import RightLinear.Dfa.Basic
import RightLinear.Misuse

namespace RightLinear

structure Draft where
  numStates : Nat := 0
  start : Option StateId := none
  dead : Option StateId := none
  alphabet : SymbolSet := ∅
  table : Std.ExtTreeMap Reading StateId := ∅
  accepting : StateSet := ∅
  deriving DecidableEq

namespace Draft

def ofAlphabet (s : SymbolSet) : Draft := { alphabet := s.readable }

def addState (d : Draft) : StateId × Draft :=
  (d.numStates, { d with numStates := d.numStates + 1 })

/-- Adds a state that each symbol in the alphabet so far leads back to, and makes it the dead
state. -/
def addDead (d : Draft) : StateId × Draft :=
  let q := d.numStates
  (q, { d with
        numStates := q + 1
        dead := some q
        table := d.table.insertMany (d.alphabet.toList.map fun a => ((q, a), q)) })

def setStart (d : Draft) (q : StateId) : Draft := { d with start := some q }

def addAccepting (d : Draft) (q : StateId) : Draft := { d with accepting := d.accepting.insert q }

/-- Adds a move in place of any other with the same source and label.  The label joins the
alphabet. -/
def addEdge (d : Draft) (e : Edge) : Except Misuse Draft :=
  if e.label.isEpsilon then .error .silentEdge
  else .ok { d with
    alphabet := d.alphabet.insert e.label
    table := d.table.insert (e.source, e.label) e.target }

def mentioned (d : Draft) : List StateId :=
  d.start.getD 0 :: d.accepting.toList ++ d.table.toList.flatMap fun ((q, _), t) => [q, t]

/-- The automaton of a draft, which starts in state 0 unless another state was chosen. -/
def finish (d : Draft) : Dfa where
  numStates := d.mentioned.foldl (fun n q => max n (q + 1)) d.numStates
  start := d.start.getD 0
  dead := d.dead
  alphabet := d.alphabet
  table := d.table
  accepting := d.accepting

end Draft

end RightLinear
