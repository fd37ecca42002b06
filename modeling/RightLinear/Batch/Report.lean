import RightLinear.Batch.Basic
import RightLinear.Dfa.Printer

namespace RightLinear.Batch

def blockText (c : Config) : Except Error Outcome → String
  | .ok o => o.dfa.text c
  | .error e => "# Error\n" ++ e.message ++ "\n\n"

def report (c : Config) (results : List (Except Error Outcome)) : String :=
  String.join ((results.zipIdx 1).map fun (r, n) => n.repr ++ "\n" ++ blockText c r)

end RightLinear.Batch
