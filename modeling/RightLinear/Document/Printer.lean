import RightLinear.Batch.Basic
import RightLinear.Document.Line

namespace RightLinear.Document

def heading (s : Section) : String := "#" ++ s.name

def ruleLine (r : Rule) : String := r.lhs.toString ++ " -> " ++ r.rhs

def grammarLines (g : Grammar) : List String :=
  [g.name ++ ":"]
  ++ heading .alphabet :: g.alphabet.toList.map (fun a => a.toString)
  ++ heading .vars :: g.vars.toList.map (fun v => v.toString)
  ++ heading .start :: g.start.toList.map (fun v => v.toString)
  ++ heading .rules :: g.rules.map ruleLine

def requestLines : Request → List String
  | .ok o => [heading .operation, o.name]
  | .error (.unknownOperation name) => [heading .operation, name]
  | .error _ => []

def caseLines (t : TestCase) : List String :=
  [t.id ++ ":"] ++ t.grammars.flatMap grammarLines ++ requestLines t.request

def text (ts : List TestCase) : String :=
  String.join ((ts.flatMap caseLines).map fun l => l ++ "\n")

end RightLinear.Document
