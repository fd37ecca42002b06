import RightLinear.Error
import RightLinear.Explore
import RightLinear.Grammar.Basic
import RightLinear.Nfa.Basic

namespace RightLinear

inductive GrammarState
  | var (v : Symbol)
  | final (v : Symbol)
  deriving DecidableEq, Repr

/-- A left-hand side is its own name, and its final state has the suffix added. -/
def GrammarState.name (c : Config) : GrammarState → String
  | var v => v.toString
  | final v => v.toString ++ c.finalSuffix

namespace Production

def move? (v : Symbol) : Production → Option (Symbol × GrammarState)
  | empty => none
  | terminal a => some (a, .final v)
  | step a next => some (a, .var next)

def accepting? (v : Symbol) : Production → Option GrammarState
  | empty => some (.var v)
  | terminal _ => some (.final v)
  | step _ _ => none

def states (v : Symbol) (p : Production) : List GrammarState :=
  .var v :: (p.move? v).toList.map Prod.snd

end Production

namespace Grammar

/-- The left-hand sides with their productions, unless a rule has another form. -/
def productions (g : Grammar) (c : Config) : Except Error (List (Symbol × Production)) :=
  g.rules.mapM fun r =>
    match g.production? c r.rhs with
    | some p => .ok (r.lhs, p)
    | none => .error (.malformedProduction g.name r.lhs r.rhs)

/-- The states in the order of their numbers: the declared variables, the start symbol, and what
the productions mention. -/
def states (g : Grammar) (start : Symbol) (ps : List (Symbol × Production)) : List GrammarState :=
  firstOccurrences <|
    g.vars.toList.map .var ++ .var start :: ps.flatMap fun (v, p) => p.states v

def assemble (g : Grammar) (c : Config) (start : Symbol) (ps : List (Symbol × Production)) : Nfa :=
  let states := g.states start ps
  let id (s : GrammarState) : StateId := states.idxOf s
  { names := states.map (GrammarState.name c)
    alphabet := g.alphabet.readable
    edges := .ofList <| ps.filterMap fun (v, p) =>
      (p.move? v).map fun (a, t) => Edge.mk (id (.var v)) a (id t)
    start := some (id (.var start))
    accepting := .ofList <| ps.filterMap fun (v, p) =>
      (p.accepting? v).map id }

/-- The automaton of a grammar.  A bad configuration is reported before a missing start symbol, and
that before the first rule that is no production. -/
def toNfa (g : Grammar) (c : Config) : Except Error Nfa :=
  match c.fault?, g.start with
  | some fault, _ => .error (.invalidConfig fault.message)
  | none, none => .error (.missingStart g.name)
  | none, some start => (g.productions c).map (g.assemble c start)

end Grammar

end RightLinear
