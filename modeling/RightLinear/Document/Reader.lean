import RightLinear.Batch.Basic
import RightLinear.Document.Fault
import RightLinear.Document.Line

namespace RightLinear

structure Reader where
  finished : List TestCase := []
  current : Option TestCase := none
  openSection : Option Section := none
  deriving DecidableEq

namespace Reader

/-- All test cases so far, with the one that is still open. -/
def cases (r : Reader) : List TestCase := r.finished ++ r.current.toList

def symbol (token : List Char) : Except LineFault Symbol :=
  match Symbol.ofText? token with
  | some a => .ok a
  | none => .error (.notASymbol (String.ofList token))

/-- The symbols listed in a line.  The bar is not one, since it separates alternatives. -/
def symbols (text : List Char) : Except LineFault (List Symbol) :=
  (Text.words text).mapM fun token =>
    (symbol token).bind fun a => if a = '|' then .error .reservedBar else .ok a

/-- The two sides of a rule line, the right one as a list of alternatives. -/
def alternatives (text : List Char) : Except LineFault (List Rule) :=
  match Text.splitArrow? text with
  | none => .error (.missingArrow (String.ofList text))
  | some (before, after) =>
    (symbol (Text.trim before)).map fun lhs =>
      (after.splitOn '|').map fun rhs => ⟨lhs, String.ofList (Text.trim rhs)⟩

def modifyGrammar (r : Reader) (f : Grammar → Grammar) : Except LineFault Reader :=
  match r.current with
  | none => .error .contentOutsideGrammar
  | some t =>
    match t.grammars.getLast? with
    | none => .error .contentOutsideGrammar
    | some g => .ok { r with current := some { t with grammars := t.grammars.dropLast ++ [f g] } }

def setRequest (r : Reader) (q : Request) : Except LineFault Reader :=
  match r.current with
  | none => .error .operationOutsideCase
  | some t => .ok { r with current := some { t with request := q } }

/-- Adds a line of content to the open section. -/
def readContent (r : Reader) (text : List Char) : Except LineFault Reader :=
  match r.openSection with
  | none => .error (.unexpectedLine (String.ofList text))
  | some .alphabet => (symbols text).bind fun as =>
      r.modifyGrammar fun g => { g with alphabet := g.alphabet.insertMany as }
  | some .vars => (symbols text).bind fun vs =>
      r.modifyGrammar fun g => { g with vars := g.vars.insertMany vs }
  | some .start => (symbol text).bind fun v => r.modifyGrammar fun g => { g with start := some v }
  | some .rules => (alternatives text).bind fun rs =>
      r.modifyGrammar fun g => { g with rules := g.rules ++ rs }
  | some .operation => r.setRequest (.ofName (String.ofList text))

def read (r : Reader) : Line → Except LineFault Reader
  | .caseHeader id => .ok { finished := r.cases, current := some { id := id } }
  | .sectionHeader name =>
    match Section.ofName? name with
    | some s => .ok { r with openSection := some s }
    | none => .error (.unknownSection name)
  | .grammarHeader name =>
    match r.current with
    | none => .error .grammarOutsideCase
    | some t => .ok { r with
        current := some { t with grammars := t.grammars ++ [{ name := name }] }
        openSection := none }
  | .content text => r.readContent text

/-- Reads numbered lines.  The first line that is wrong ends the reading. -/
def readLines (r : Reader) (lines : List (List Char × Nat)) : Except Error Reader :=
  lines.foldlM (fun r (cs, n) =>
    (r.read (.ofText cs)).mapError fun fault => .parse n fault.message) r

end Reader

namespace Document

def parse (document : String) : Except Error (List TestCase) :=
  (Reader.readLines {} (Line.numbered document.toList)).map Reader.cases

end Document

end RightLinear
