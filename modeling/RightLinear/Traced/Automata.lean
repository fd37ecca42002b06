import RightLinear.Dfa.Algebra
import RightLinear.Grammar.Automaton
import RightLinear.Nfa.Determinize
import RightLinear.Traced.Basic

namespace RightLinear.Traced

def grammarNfa (c : Config) (g : Grammar) : Traced Nfa := do
  let n ← lift (g.toNfa c)
  emit (.grammarAssembled g.name g.rules.length n.numStates)
  return n

/-- Records every set of live states under its number. -/
def determinize (n : Nfa) : Traced Dfa := do
  emitAll (n.subsets.zipIdx.map fun (s, i) => .subsetExpanded i s)
  let d := n.determinize
  emit (.determinized n.numStates d.numStates d.dead.isSome)
  return d

def grammarDfa (c : Config) (g : Grammar) : Traced Dfa := do determinize (← grammarNfa c g)

def complement (d : Dfa) : Traced Dfa := do
  unless d.IsTotal do emit (.partialComplement d.numStates)
  return d.complement

def product (k : Connective) (l r : Dfa) : Traced Dfa := do
  let d ← lift (l.product k r)
  emit (.productFinished k l.numStates r.numStates d.numStates)
  return d

def union (l r : Dfa) : Traced Dfa := product .either l r

def announce (d : Dfa) : Traced Dfa := do
  if d.noneAccepting then emit .emptyIntersection
  return d

def intersection (l r : Dfa) : Traced Dfa := do announce (← product .both l r)

def unionAll (ds : List Dfa) : Traced Dfa := foldOperands union ds

/-- The first operand is announced too, as an intersection of one. -/
def intersectionAll : List Dfa → Traced Dfa
  | [] => throw .noOperands
  | d :: ds => do ds.foldlM intersection (← announce d)

@[simp] theorem result_grammarNfa (c : Config) (g : Grammar) :
    (grammarNfa c g).result = g.toNfa c := by
  simp only [grammarNfa, result_bind, result_lift]
  cases g.toNfa c <;> rfl

@[simp] theorem result_determinize (n : Nfa) : (determinize n).result = .ok n.determinize := rfl

@[simp] theorem result_grammarDfa (c : Config) (g : Grammar) :
    (grammarDfa c g).result = (g.toNfa c).map Nfa.determinize := by
  simp only [grammarDfa, result_bind, result_grammarNfa]
  cases g.toNfa c <;> rfl

@[simp] theorem result_complement (d : Dfa) : (complement d).result = .ok d.complement := by
  by_cases h : d.IsTotal
  · simp [complement, h]
  · simp only [complement, h]; rfl

@[simp] theorem result_product (k : Connective) (l r : Dfa) :
    (product k l r).result = l.product k r := by
  simp only [product, result_bind, result_lift]
  cases l.product k r <;> rfl

@[simp] theorem result_union (l r : Dfa) : (union l r).result = l.union r := result_product ..

@[simp] theorem result_announce (d : Dfa) : (announce d).result = .ok d := by
  by_cases h : d.noneAccepting = true
  · simp only [announce, h]; rfl
  · simp [announce, h]

@[simp] theorem result_intersection (l r : Dfa) : (intersection l r).result = l.intersection r := by
  simp only [intersection, result_bind, result_product]
  show (l.product .both r).bind _ = l.product .both r
  cases l.product .both r <;> simp [Except.bind]

/-- Forgetting the record of a fold is folding without one. -/
theorem result_foldlM {f : Dfa → Dfa → Traced Dfa} {g : Dfa → Dfa → Except Error Dfa}
    (h : ∀ l r, (f l r).result = g l r) (ds : List Dfa) (d : Dfa) :
    (ds.foldlM f d).result = ds.foldlM g d := by
  induction ds generalizing d with
  | nil => rfl
  | cons e ds ih =>
    simp only [List.foldlM_cons, result_bind, h]
    cases g d e with
    | error => rfl
    | ok d => exact ih d

@[simp] theorem result_unionAll (ds : List Dfa) : (unionAll ds).result = Dfa.unionAll ds := by
  cases ds with
  | nil => rfl
  | cons d ds => exact result_foldlM result_union ds d

@[simp] theorem result_intersectionAll (ds : List Dfa) :
    (intersectionAll ds).result = Dfa.intersectionAll ds := by
  cases ds with
  | nil => rfl
  | cons d ds =>
    simp only [intersectionAll, result_bind, result_announce]
    exact result_foldlM result_intersection ds d

end RightLinear.Traced
