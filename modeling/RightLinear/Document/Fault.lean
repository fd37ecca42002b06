namespace RightLinear

inductive LineFault
  | unknownSection (name : String)
  | grammarOutsideCase
  | operationOutsideCase
  | contentOutsideGrammar
  | unexpectedLine (line : String)
  | notASymbol (token : String)
  /-- The bar between alternatives was listed as a symbol. -/
  | reservedBar
  | missingArrow (line : String)
  deriving DecidableEq, Repr

def LineFault.message : LineFault → String
  | unknownSection name => "unknown section `" ++ name ++ "`"
  | grammarOutsideCase => "grammar outside of a test case"
  | operationOutsideCase => "operation outside of a test case"
  | contentOutsideGrammar => "grammar content outside of a grammar"
  | unexpectedLine line => "unexpected line `" ++ line ++ "`"
  | notASymbol token => "expected a single-character symbol, found `" ++ token ++ "`"
  | reservedBar => "`|` separates rule alternatives and cannot be a symbol"
  | missingArrow line => "rule without `->`: `" ++ line ++ "`"

end RightLinear
