import RightLinear.Symbol

namespace RightLinear

inductive Error
  /-- A right-hand side is neither empty nor a terminal, alone or before a variable. -/
  | malformedProduction (grammar : String) (lhs : Symbol) (rhs : String)
  | alphabetMismatch (left right : SymbolSet)
  | noOperands
  | missingStart (grammar : String)
  | missingOperation
  /-- Lines are counted from one. -/
  | parse (line : Nat) (message : String)
  | unknownOperation (name : String)
  | invalidConfig (message : String)
  deriving DecidableEq

def Error.message : Error → String
  | malformedProduction grammar lhs rhs =>
    "invalid production in " ++ grammar ++ ": " ++ lhs.toString ++ " -> " ++ rhs
  | alphabetMismatch left right =>
    "alphabets must be the same: " ++ left.text ++ " vs " ++ right.text
  | noOperands => "operation needs at least one automaton"
  | missingStart grammar => "grammar " ++ grammar ++ " has no start symbol"
  | missingOperation => "test case has no operation"
  | parse line message => "line " ++ line.repr ++ ": " ++ message
  | unknownOperation name => "unknown operation `" ++ name ++ "`"
  | invalidConfig message => "invalid configuration: " ++ message

end RightLinear
