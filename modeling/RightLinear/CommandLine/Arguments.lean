namespace RightLinear.CommandLine

structure Paths where
  input : String := "input.txt"
  output : String := "output.txt"
  deriving DecidableEq, Repr

inductive Invocation
  | process (paths : Paths)
  | version
  | help
  | badUsage
  deriving DecidableEq, Repr

/-- The paths named by the operands, of which there are at most two and none is empty. -/
def Paths.ofOperands? : List String → Option Paths
  | [] => some {}
  | [i] => if i.isEmpty then none else some { input := i }
  | [i, o] => if i.isEmpty || o.isEmpty then none else some { input := i, output := o }
  | _ => none

/-- What a word that starts with a dash asks for, unless it is an operand.  Of several short
options in one word the first decides. -/
def option? (arg : String) : Option Invocation :=
  match arg.toList with
  | ['-'] => none
  | '-' :: '-' :: _ =>
    some (if arg = "--version" then .version else if arg = "--help" then .help else .badUsage)
  | '-' :: 'V' :: _ => some .version
  | '-' :: 'h' :: _ => some .help
  | '-' :: _ => some .badUsage
  | _ => none

def processing (operands : List String) : Invocation :=
  ((Paths.ofOperands? operands).map .process).getD .badUsage

/-- Reads arguments from the left.  The first that is wrong, or asks for a text, decides; after
`--` everything is an operand. -/
def Invocation.ofArguments (operands : List String) : List String → Invocation
  | [] => processing operands
  | "--" :: args => processing (operands ++ args)
  | arg :: args =>
    match option? arg with
    | some i => if (Paths.ofOperands? operands).isSome then i else .badUsage
    | none => ofArguments (operands ++ [arg]) args

end RightLinear.CommandLine
