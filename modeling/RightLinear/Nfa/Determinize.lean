import RightLinear.Dfa.Numbering
import RightLinear.Nfa.Run

namespace RightLinear.Nfa

def followers (n : Nfa) (s : StateSet) : List StateSet := n.alphabet.toList.filterMap (n.follow? s)

/-- The sets of live states that words lead to, in the order of their discovery.  Beside the
initial set, each is made of targets of moves, which bounds the search. -/
def subsets (n : Nfa) : List StateSet :=
  explore n.followers (Nat.pow 2 (n.edges.size + 1)) [] [n.initial]

def dies (n : Nfa) : Bool :=
  n.subsets.any fun s => n.alphabet.toList.any fun a => (n.follow? s a).isNone

/-- The sets of live states, and after them `none` for the dead state if something leads to it. -/
def subsetStates (n : Nfa) : List (Option StateSet) :=
  if n.dies then n.subsets.map some ++ [none] else n.subsets.map some

/-- Where no move reads the symbol, the dead state is next. -/
def subsetNext (n : Nfa) (s : Option StateSet) (a : Symbol) : Option StateSet :=
  s.bind fun t => n.follow? t a

def subsetAccepts (n : Nfa) (s : Option StateSet) : Bool := s.any fun t => t.meets n.accepting

def determinize (n : Nfa) : Dfa :=
  .ofStates n.alphabet n.subsetStates n.subsetNext n.subsetAccepts
    (if n.dies then some n.subsets.length else none)

end RightLinear.Nfa
