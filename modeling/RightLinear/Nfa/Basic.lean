import RightLinear.Edge

namespace RightLinear

/-- A nondeterministic automaton.  The states that have a name are numbered by its position. -/
structure Nfa where
  names : List String := []
  alphabet : SymbolSet := ∅
  edges : Std.ExtTreeSet Edge := ∅
  start : Option StateId := none
  accepting : StateSet := ∅
  deriving DecidableEq

namespace Nfa

def ofAlphabet (s : SymbolSet) : Nfa := { alphabet := s.readable }

def numStates (n : Nfa) : Nat := n.names.length

def stateName? (n : Nfa) (q : StateId) : Option String := n.names[q]?

def stateId? (n : Nfa) (name : String) : Option StateId := n.names.idxOf? name

/-- The state of that name, which is created when there is none. -/
def addState (n : Nfa) (name : String) : StateId × Nfa :=
  if name ∈ n.names then (n.names.idxOf name, n)
  else (n.names.length, { n with names := n.names ++ [name] })

/-- Adds a move.  A label that can be read joins the alphabet. -/
def addEdge (n : Nfa) (e : Edge) : Nfa :=
  { n with
    alphabet := if e.label.isEpsilon then n.alphabet else n.alphabet.insert e.label
    edges := n.edges.insert e }

def addSilent (n : Nfa) (p q : StateId) : Nfa := n.addEdge ⟨p, Symbol.epsilon, q⟩

def setStart (n : Nfa) (q : StateId) : Nfa := { n with start := some q }

def addAccepting (n : Nfa) (q : StateId) : Nfa := { n with accepting := n.accepting.insert q }

/-- The states that one move with the label `a` leads to from a state of `s`. -/
def image (n : Nfa) (s : StateSet) (a : Symbol) : StateSet :=
  .ofList ((n.edges.toList.filter fun e => s.contains e.source && e.label == a).map Edge.target)

def targets? (n : Nfa) (q : StateId) (a : Symbol) : Option StateSet :=
  let t := n.image {q} a
  if t.isEmpty then none else some t

def hasSilent (n : Nfa) : Bool := n.edges.any fun e => e.label.isEpsilon

@[simp] theorem mem_image (n : Nfa) (s : StateSet) (a : Symbol) (q : StateId) :
    q ∈ n.image s a ↔ ∃ p, p ∈ s ∧ ⟨p, a, q⟩ ∈ n.edges := by
  simp only [image, Std.ExtTreeSet.mem_ofList, List.contains_iff_mem, List.mem_map,
    List.mem_filter, Std.ExtTreeSet.mem_toList, Bool.and_eq_true, beq_iff_eq,
    Std.ExtTreeSet.contains_iff_mem]
  constructor
  · intro h
    obtain ⟨⟨p, b, t⟩, ⟨he, hp, rfl⟩, rfl⟩ := h
    exact ⟨p, hp, he⟩
  · intro h
    obtain ⟨p, hp, he⟩ := h
    exact ⟨⟨p, a, q⟩, ⟨he, hp, rfl⟩, rfl⟩

/-- What every operation keeps: the names are distinct, nothing in the alphabet is silent, and
every label that can be read is in the alphabet. -/
structure WellFormed (n : Nfa) : Prop where
  nodup_names : n.names.Nodup
  epsilon_not_mem : Symbol.epsilon ∉ n.alphabet
  label_mem : ∀ e ∈ n.edges, e.label ≠ Symbol.epsilon → e.label ∈ n.alphabet

theorem WellFormed.ofAlphabet (s : SymbolSet) : (Nfa.ofAlphabet s).WellFormed where
  nodup_names := List.Pairwise.nil
  epsilon_not_mem h := ((SymbolSet.mem_readable s _).1 h).2 rfl
  label_mem _ h := absurd h Std.ExtTreeSet.not_mem_empty

theorem WellFormed.addState {n : Nfa} (h : n.WellFormed) (name : String) :
    (n.addState name).2.WellFormed := by
  unfold Nfa.addState
  split
  · exact h
  · next hn =>
    refine ⟨List.nodup_append.2 ⟨h.nodup_names, by simp, ?_⟩, h.epsilon_not_mem, h.label_mem⟩
    intro a ha b hb e
    exact hn (List.mem_singleton.1 hb ▸ e ▸ ha)

theorem WellFormed.addEdge {n : Nfa} (h : n.WellFormed) (e : Edge) : (n.addEdge e).WellFormed where
  nodup_names := h.nodup_names
  epsilon_not_mem := by
    unfold Nfa.addEdge
    by_cases he : e.label = Symbol.epsilon
    · simpa [he, Symbol.isEpsilon] using h.epsilon_not_mem
    · simpa [Symbol.isEpsilon, he, Std.ExtTreeSet.mem_insert] using h.epsilon_not_mem
  label_mem f hf hne := by
    simp only [Nfa.addEdge, Std.ExtTreeSet.mem_insert, Std.LawfulEqCmp.compare_eq_iff_eq] at hf ⊢
    rcases hf with rfl | hf
    · simp [Symbol.isEpsilon, hne]
    · split
      · exact h.label_mem f hf hne
      · exact Std.ExtTreeSet.mem_insert.2 (.inr (h.label_mem f hf hne))

end Nfa

end RightLinear
