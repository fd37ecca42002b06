import RightLinear.Dfa.Basic
import RightLinear.Error
import RightLinear.Grammar.Basic

namespace RightLinear

inductive Operation
  | complement
  | union
  | intersection
  deriving DecidableEq, Repr

namespace Operation

def name : Operation → String
  | complement => "Complement"
  | union => "Union"
  | intersection => "Intersection"

def ofName? (s : String) : Option Operation :=
  [complement, union, intersection].find? fun o => o.name == s

@[simp] theorem ofName?_name (o : Operation) : ofName? o.name = some o := by
  cases o <;> rfl

end Operation

/-- The operation of a test case, or why there is none that can be run. -/
abbrev Request := Except Error Operation

namespace Request

instance (priority := 2000) decEq : DecidableEq Request
  | .ok o, .ok p => decidable_of_iff (o = p) (by rw [Except.ok.injEq])
  | .error e, .error f => decidable_of_iff (e = f) (by rw [Except.error.injEq])
  | .ok _, .error _ => isFalse nofun
  | .error _, .ok _ => isFalse nofun

abbrev missing : Request := .error .missingOperation

def ofName (s : String) : Request :=
  match Operation.ofName? s with
  | some o => .ok o
  | none => .error (.unknownOperation s)

end Request

/-- A test case.  A request that is an error fails this case only, and only when it is run. -/
structure TestCase where
  id : String
  grammars : List Grammar := []
  request : Request := .missing
  deriving DecidableEq

/-- The automaton of a test case, and whether it is an intersection without accepting states. -/
structure Outcome where
  id : String
  dfa : Dfa
  emptyLanguage : Bool
  deriving DecidableEq

end RightLinear
