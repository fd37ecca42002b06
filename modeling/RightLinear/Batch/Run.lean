import RightLinear.Traced.Automata

namespace RightLinear

def Operation.apply : Operation → List Dfa → Traced Dfa
  | .complement, [] => throw .noOperands
  | .complement, d :: _ => Traced.complement d
  | .union, ds => Traced.unionAll ds
  | .intersection, ds => Traced.intersectionAll ds

namespace TestCase

def run (c : Config) (t : TestCase) : Traced Outcome := do
  let o ← Traced.lift t.request
  let ds ← t.grammars.mapM (Traced.grammarDfa c)
  let d ← o.apply ds
  Traced.emit (.caseEvaluated t.id o t.grammars.length d.numStates)
  return { id := t.id, dfa := d, emptyLanguage := o == .intersection && d.noneAccepting }

def runReported (c : Config) (t : TestCase) : Traced (Except Error Outcome) := do
  let r ← (t.run c).attempt
  if let .error e := r then Traced.emit (.caseFailed t.id e)
  return r

end TestCase

namespace Batch

/-- Runs every case.  One that fails does not stop the others. -/
def runAll (c : Config) (ts : List TestCase) : Traced (List (Except Error Outcome)) :=
  ts.mapM (TestCase.runReported c)

end Batch

end RightLinear
