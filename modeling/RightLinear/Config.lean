import RightLinear.Text.Pieces

namespace RightLinear

/-- Spelling choices.  The second default spelling of the empty word is how the bytes of `ε` read
in an eight-bit encoding. -/
structure Config where
  epsilonSpellings : List String := ["ε", "Îµ"]
  /-- Written after a variable, this names the state that its terminal rules end in. -/
  finalSuffix : String := "_final"
  deadStateName : String := "N"
  /-- Written before the number of a state, this names the state. -/
  statePrefix : String := "q"
  deriving DecidableEq, Repr

inductive ConfigFault
  | noEpsilonSpelling
  | emptyFinalSuffix
  | badStateName
  | deadNameCollides (name : String)
  deriving DecidableEq, Repr

def ConfigFault.message : ConfigFault → String
  | noEpsilonSpelling => "no epsilon spelling given"
  | emptyFinalSuffix => "empty final suffix would reuse the variable's own state"
  | badStateName => "state names must be non-empty and free of whitespace"
  | deadNameCollides name => "dead state name `" ++ name ++ "` collides with discovered state names"

namespace Config

def isEpsilon (c : Config) (rhs : String) : Bool := c.epsilonSpellings.contains rhs

/-- Whether the name of the dead state is also the name of a numbered state, leading zeros
included. -/
def deadNameCollides (c : Config) : Bool :=
  match c.statePrefix.toList.isPrefixOf? c.deadStateName.toList with
  | some rest => !rest.isEmpty && rest.all Char.isDigit
  | none => false

/-- The first reason to refuse a configuration, if there is one. -/
def fault? (c : Config) : Option ConfigFault :=
  if c.epsilonSpellings.isEmpty then some .noEpsilonSpelling
  else if c.finalSuffix.isEmpty then some .emptyFinalSuffix
  else if !Text.isToken c.deadStateName.toList || !Text.isToken c.statePrefix.toList then
    some .badStateName
  else if c.deadNameCollides then some (.deadNameCollides c.deadStateName)
  else none

end Config

end RightLinear
