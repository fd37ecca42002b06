import RightLinear.Symbol
import RightLinear.Text.Pieces

namespace RightLinear

inductive Section
  | alphabet
  | vars
  | start
  | rules
  | operation
  deriving DecidableEq, Repr

namespace Section

def name : Section → String
  | alphabet => "Alphabet"
  | vars => "Variables"
  | start => "Start"
  | rules => "Rules"
  | operation => "Operation"

def ofName? (s : String) : Option Section :=
  [alphabet, vars, start, rules, operation].find? fun x => x.name == s

@[simp] theorem ofName?_name (x : Section) : ofName? x.name = some x := by
  cases x <;> rfl

end Section

inductive Line
  /-- A digit first and a colon last: the identifier of a new test case. -/
  | caseHeader (id : String)
  /-- A `#` first: the name of a section. -/
  | sectionHeader (name : String)
  /-- A `G` first, a colon last and no arrow: the name of a new grammar. -/
  | grammarHeader (name : String)
  | content (text : List Char)
  deriving DecidableEq

namespace Line

def isCaseHeader (cs : List Char) : Bool :=
  cs.head?.any Char.isDigit && cs.getLast? == some ':'

def isGrammarHeader (cs : List Char) : Bool :=
  cs.head? == some 'G' && cs.getLast? == some ':' && (Text.splitArrow? cs).isNone

def headerText (cs : List Char) : String := String.ofList (Text.trim cs.dropLast)

/-- What a line says, once the blanks at its ends are gone. -/
def ofText (cs : List Char) : Line :=
  if isCaseHeader cs then .caseHeader (headerText cs)
  else if cs.head? == some '#' then .sectionHeader (String.ofList (Text.trim cs.tail))
  else if isGrammarHeader cs then .grammarHeader (headerText cs)
  else .content cs

def isSignificant (cs : List Char) : Bool := !cs.isEmpty && cs.head? != some '='

/-- The lines of a document that are to be read, with their numbers from one. -/
def numbered (document : List Char) : List (List Char × Nat) :=
  (((document.splitOn '\n').map Text.trim).zipIdx 1).filter fun (cs, _) => isSignificant cs

end Line

end RightLinear
