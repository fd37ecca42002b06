import RightLinear.Dfa.Algebra
import RightLinear.Dfa.Draft
import RightLinear.Grammar.Automaton
import RightLinear.Nfa.Determinize

namespace RightLinear

namespace Nfa

inductive Change
  | state (name : String)
  | edge (e : Edge)
  | silent (p q : StateId)
  | start (q : StateId)
  | accepting (q : StateId)

def change : Change → StateM Nfa (Option StateId)
  | .state name => do return some (← modifyGet fun n => n.addState name)
  | .edge e => do
    modify fun n => n.addEdge e
    return none
  | .silent p q => do
    modify fun n => n.addSilent p q
    return none
  | .start q => do
    modify fun n => n.setStart q
    return none
  | .accepting q => do
    modify fun n => n.addAccepting q
    return none

end Nfa

namespace Draft

inductive Change
  | state
  | dead
  | edge (e : Edge)
  | start (q : StateId)
  | accepting (q : StateId)

/-- Adds a move in place: the label is looked at, then it joins the alphabet, then the table
changes. -/
def insertEdge (e : Edge) : ExceptT Misuse (StateM Draft) Unit := do
  if e.label.isEpsilon then throw .silentEdge
  modify fun d => { d with alphabet := d.alphabet.insert e.label }
  modify fun d => { d with table := d.table.insert (e.source, e.label) e.target }

def change : Change → ExceptT Misuse (StateM Draft) (Option StateId)
  | .state => do return some (← modifyGet addState)
  | .dead => do return some (← modifyGet addDead)
  | .edge e => do
    insertEdge e
    return none
  | .start q => do
    modify fun d => d.setStart q
    return none
  | .accepting q => do
    modify fun d => d.addAccepting q
    return none

end Draft

structure Session where
  nfaDrafts : List Nfa := []
  nfas : List Nfa := []
  dfaDrafts : List Draft := []
  dfas : List Dfa := []
  deriving DecidableEq

namespace Session

/-- Registers are given by their places. -/
inductive Call
  | newNfa (alphabet : List Symbol)
  | changeNfa (i : Nat) (c : Nfa.Change)
  | buildNfa (i : Nat)
  | newDfa (alphabet : List Symbol)
  | changeDfa (i : Nat) (c : Draft.Change)
  | buildDfa (i : Nat)
  | grammarNfa (c : Config) (g : Grammar)
  | grammarDfa (c : Config) (g : Grammar)
  | determinize (i : Nat)
  | complement (i : Nat)
  | union (i j : Nat)
  | intersection (i j : Nat)
  | unionAll (is : List Nat)
  | intersectionAll (is : List Nat)

inductive Reply
  | done (q : Option StateId)
  | refused (m : Misuse)
  | failed (e : Error)
  | noRegister
  deriving DecidableEq

def Reply.ofChange : Except Misuse (Option StateId) → Reply
  | .ok q => done q
  | .error m => refused m

def storeNfa (s : Session) : Except Error Nfa → Reply × Session
  | .ok n => (.done none, { s with nfas := s.nfas ++ [n] })
  | .error e => (.failed e, s)

def storeDfa (s : Session) : Except Error Dfa → Reply × Session
  | .ok d => (.done none, { s with dfas := s.dfas ++ [d] })
  | .error e => (.failed e, s)

def withRegister {α : Type} (s : Session) (register : Option α) (go : α → Reply × Session) :
    Reply × Session :=
  register.elim (.noRegister, s) go

def perform (s : Session) : Call → Reply × Session
  | .newNfa alphabet =>
    (.done none, { s with nfaDrafts := s.nfaDrafts ++ [.ofAlphabet (.ofList alphabet)] })
  | .changeNfa i c => s.withRegister s.nfaDrafts[i]? fun n =>
    let (q, n) := (Nfa.change c).run n
    (.done q, { s with nfaDrafts := s.nfaDrafts.set i n })
  | .buildNfa i => s.withRegister s.nfaDrafts[i]? fun n => s.storeNfa (.ok n)
  | .newDfa alphabet =>
    (.done none, { s with dfaDrafts := s.dfaDrafts ++ [.ofAlphabet (.ofList alphabet)] })
  | .changeDfa i c => s.withRegister s.dfaDrafts[i]? fun d =>
    let (answer, d) := (Draft.change c).run.run d
    (.ofChange answer, { s with dfaDrafts := s.dfaDrafts.set i d })
  | .buildDfa i => s.withRegister s.dfaDrafts[i]? fun d => s.storeDfa (.ok d.finish)
  | .grammarNfa c g => s.storeNfa (g.toNfa c)
  | .grammarDfa c g => s.storeDfa ((g.toNfa c).map Nfa.determinize)
  | .determinize i => s.withRegister s.nfas[i]? fun n => s.storeDfa (.ok n.determinize)
  | .complement i => s.withRegister s.dfas[i]? fun d => s.storeDfa (.ok d.complement)
  | .union i j => s.withRegister s.dfas[i]? fun l =>
    s.withRegister s.dfas[j]? fun r => s.storeDfa (l.union r)
  | .intersection i j => s.withRegister s.dfas[i]? fun l =>
    s.withRegister s.dfas[j]? fun r => s.storeDfa (l.intersection r)
  | .unionAll is => s.withRegister (is.mapM fun i => s.dfas[i]?) fun ds =>
    s.storeDfa (Dfa.unionAll ds)
  | .intersectionAll is => s.withRegister (is.mapM fun i => s.dfas[i]?) fun ds =>
    s.storeDfa (Dfa.intersectionAll ds)

def run (s : Session) (calls : List Call) : Session :=
  calls.foldl (fun s c => (s.perform c).2) s

end Session

end RightLinear
