import RightLinear.Edge

namespace RightLinear

/-- A deterministic automaton over the states `0, …, numStates - 1`.  The dead state, if there is
one, is the sink that was added to make the table total, and is written under a name of its own. -/
structure Dfa where
  numStates : Nat
  start : StateId
  dead : Option StateId
  alphabet : SymbolSet
  table : Std.ExtTreeMap Reading StateId
  accepting : StateSet
  deriving DecidableEq

namespace Dfa

def states (d : Dfa) : List StateId := List.range d.numStates

def isAccepting (d : Dfa) (q : StateId) : Bool := d.accepting.contains q

def next? (d : Dfa) (q : StateId) (a : Symbol) : Option StateId := d.table[(q, a)]?

def edges (d : Dfa) : List Edge := d.table.toList.map fun ((q, a), t) => ⟨q, a, t⟩

def IsTotal (d : Dfa) : Prop := ∀ q < d.numStates, ∀ a ∈ d.alphabet.toList, (q, a) ∈ d.table

instance (d : Dfa) : Decidable d.IsTotal :=
  @Nat.decidableBallLT d.numStates _ fun q _ =>
    List.decidableBAll (fun a => (q, a) ∈ d.table) d.alphabet.toList

/-- The state in which a word ends, unless a move is missing on the way. -/
def run (d : Dfa) : StateId → Word → Option StateId
  | q, [] => some q
  | q, a :: w => (d.next? q a).bind fun t => d.run t w

def accepts (d : Dfa) (w : Word) : Bool := (d.run d.start w).any d.isAccepting

/-- All states that occur are below `numStates`, and all symbols that are read are in the
alphabet, which holds nothing silent. -/
structure WellFormed (d : Dfa) : Prop where
  start_lt : d.start < d.numStates
  dead_lt : ∀ q, d.dead = some q → q < d.numStates
  accepting_lt : ∀ q ∈ d.accepting, q < d.numStates
  edge_lt : ∀ q a t, d.next? q a = some t → q < d.numStates ∧ t < d.numStates
  label_mem : ∀ q a t, d.next? q a = some t → a ∈ d.alphabet
  epsilon_not_mem : Symbol.epsilon ∉ d.alphabet

theorem run_append (d : Dfa) (q : StateId) (v w : Word) :
    d.run q (v ++ w) = (d.run q v).bind fun t => d.run t w := by
  induction v generalizing q with
  | nil => rfl
  | cons a v ih =>
    simp only [List.cons_append, run, Option.bind_assoc]
    exact congrArg _ (funext fun t => ih t)

theorem mem_edges (d : Dfa) (e : Edge) :
    e ∈ d.edges ↔ d.next? e.source e.label = some e.target := by
  simp only [edges, next?, List.mem_map]
  constructor
  · intro h
    obtain ⟨⟨⟨q, a⟩, t⟩, h, rfl⟩ := h
    exact Std.ExtTreeMap.mem_toList_iff_getElem?_eq_some.1 h
  · intro h
    exact ⟨((e.source, e.label), e.target), Std.ExtTreeMap.mem_toList_iff_getElem?_eq_some.2 h, rfl⟩

theorem ext_next? {d e : Dfa} (hn : d.numStates = e.numStates) (hs : d.start = e.start)
    (hd : d.dead = e.dead) (ha : d.alphabet = e.alphabet) (hf : d.accepting = e.accepting)
    (ht : ∀ q a, d.next? q a = e.next? q a) : d = e := by
  obtain ⟨_, _, _, _, _, _⟩ := d
  obtain ⟨_, _, _, _, _, _⟩ := e
  subst hn hs hd ha hf
  congr
  exact Std.ExtTreeMap.ext_getElem? fun r => ht r.1 r.2

end Dfa

end RightLinear
