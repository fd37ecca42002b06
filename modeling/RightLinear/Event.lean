import RightLinear.Batch.Basic
import RightLinear.Dfa.Product

namespace RightLinear

inductive Level
  | trace
  | debug
  | info
  | warn
  deriving DecidableEq, Repr

def Level.name : Level → String
  | trace => "TRACE"
  | debug => "DEBUG"
  | info => "INFO"
  | warn => "WARN"

inductive Event
  | grammarAssembled (grammar : String) (rules states : Nat)
  /-- A set of live states became the state `state`. -/
  | subsetExpanded (state : StateId) (members : StateSet)
  | determinized (nfaStates dfaStates : Nat) (dead : Bool)
  | productFinished (accept : Connective) (left right states : Nat)
  | emptyIntersection
  | partialComplement (states : Nat)
  | caseEvaluated (id : String) (operation : Operation) (grammars states : Nat)
  | caseFailed (id : String) (error : Error)
  deriving DecidableEq

namespace Event

def level : Event → Level
  | subsetExpanded .. => .trace
  | grammarAssembled .. | determinized .. | productFinished .. | caseEvaluated .. => .debug
  | emptyIntersection => .info
  | partialComplement .. | caseFailed .. => .warn

def message : Event → String
  | grammarAssembled .. => "translated grammar"
  | subsetExpanded .. => "expanding subset"
  | determinized .. => "subset construction finished"
  | productFinished .. => "product construction finished"
  | emptyIntersection => "the intersection of the languages is empty"
  | partialComplement .. => "complementing a partial DFA, missing transitions stay rejecting"
  | caseEvaluated .. => "evaluated test case"
  | caseFailed .. => "test case failed"

def fields : Event → List (String × String)
  | grammarAssembled grammar rules states =>
    [("grammar", grammar), ("rules", rules.repr), ("states", states.repr)]
  | subsetExpanded state members => [("state", state.repr), ("nfa_states", members.text)]
  | determinized nfaStates dfaStates dead =>
    [("nfa_states", nfaStates.repr), ("dfa_states", dfaStates.repr),
     ("dead_state", if dead then "true" else "false")]
  | productFinished accept left right states =>
    [("accept", accept.name), ("left_states", left.repr), ("right_states", right.repr),
     ("product_states", states.repr)]
  | emptyIntersection => []
  | partialComplement states => [("states", states.repr)]
  | caseEvaluated id operation grammars states =>
    [("case", id), ("operation", operation.name), ("grammars", grammars.repr),
     ("states", states.repr)]
  | caseFailed id error => [("case", id), ("err", error.message)]

end Event

end RightLinear
