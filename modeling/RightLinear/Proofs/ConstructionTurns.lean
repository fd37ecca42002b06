import Mathlib.Data.List.Infix
import RightLinear.Proofs.BuiltByHand
import RightLinear.Proofs.Discovery

namespace RightLinear

open Relation

/-- What a deterministic automaton is to be made of.  A state that `next?` has no successor for is
to move to a dead state. -/
structure Blueprint (σ : Type) where
  alphabet : SymbolSet
  init : σ
  next? : σ → Symbol → Except Misuse (Option σ)
  accepts : σ → Bool
  events : StateId → σ → List Event

/-- A construction under way: the numbers of the states that were met, those that are still to be
expanded, and the moves that wait for the dead state. -/
structure Building (σ : Type) where
  draft : Draft
  numbers : List (σ × StateId)
  queue : List (StateId × σ)
  stuck : List Reading
  events : List Event

section Turns

variable {σ : Type} [DecidableEq σ]

/-- The number of a state.  One that is met for the first time is added to the draft and joins the
queue. -/
def Building.meet (b : Building σ) (s : σ) : StateId × Building σ :=
  match b.numbers.lookup s with
  | some q => (q, b)
  | none =>
    let (q, draft) := b.draft.addState
    (q, { b with draft, numbers := b.numbers ++ [(s, q)], queue := b.queue ++ [(q, s)] })

/-- Adds the dead state if a move waits for it, and finishes the draft. -/
def Building.seal (b : Building σ) : Except Misuse Dfa :=
  if b.stuck.isEmpty then .ok b.draft.finish
  else
    let (dead, draft) := b.draft.addDead
    (b.stuck.foldlM (fun d r => Draft.addEdge d ⟨r.1, r.2, dead⟩) draft).map Draft.finish

namespace Blueprint

def begin (p : Blueprint σ) : Building σ :=
  let (q, draft) := (Draft.ofAlphabet p.alphabet).addState
  ⟨draft.setStart q, [(p.init, q)], [(q, p.init)], [], []⟩

def move (p : Blueprint σ) (q : StateId) (s : σ) (b : Building σ) (a : Symbol) :
    Except Misuse (Building σ) := do
  match ← p.next? s a with
  | none => return { b with stuck := b.stuck ++ [(q, a)] }
  | some t =>
    let (r, b) := b.meet t
    return { b with draft := ← b.draft.addEdge ⟨q, a, r⟩ }

/-- One turn: the state at the front of the queue gets its moves, symbol by symbol. -/
def turn? (p : Blueprint σ) (b : Building σ) : Option (Except Misuse (Building σ)) :=
  match b.queue with
  | [] => none
  | (q, s) :: queue =>
    let draft := if p.accepts s then b.draft.addAccepting q else b.draft
    some (p.alphabet.toList.foldlM (p.move q s)
      { b with draft, queue, events := b.events ++ p.events q s })

def Turns (p : Blueprint σ) : Building σ → Building σ → Prop :=
  ReflTransGen fun b b' => p.turn? b = some (.ok b')

/-- The turns come to an end, and then the automaton `d` is finished and `events` are recorded. -/
def Yields (p : Blueprint σ) (d : Dfa) (events : List Event) : Prop :=
  ∃ b, p.Turns p.begin b ∧ p.turn? b = none ∧ b.seal = .ok d ∧ b.events = events

/-- Every symbol of the alphabet can be read, and leads to where `step` says. -/
structure Follows (p : Blueprint σ) (step : σ → Symbol → Option σ) : Prop where
  next?_eq : ∀ s, ∀ a ∈ p.alphabet, p.next? s a = .ok (step s a)
  epsilon_not_mem : Symbol.epsilon ∉ p.alphabet

end Blueprint

end Turns

variable {σ : Type} [DecidableEq σ] {p : Blueprint σ} {step : σ → Symbol → Option σ}
  {all listed queue : List σ}

section Stages

variable {moves : List (Reading × StateId)} {accepting : List StateId} {stuck : List Reading}
  {events : List Event}

/-- A construction that has met `listed`, where the states are numbered by their places in `all`. -/
def Blueprint.stage (p : Blueprint σ) (all listed queue : List σ)
    (moves : List (Reading × StateId)) (accepting : List StateId) (stuck : List Reading)
    (events : List Event) : Building σ where
  draft := { numStates := listed.length, start := some 0, alphabet := p.alphabet,
             table := .ofList moves, accepting := .ofList accepting }
  numbers := listed.zipIdx
  queue := queue.map fun s => (all.idxOf s, s)
  stuck := stuck
  events := events

def movesOn (step : σ → Symbol → Option σ) (all : List σ) (as : List Symbol) (s : σ) :
    List (Reading × StateId) :=
  as.flatMap fun a => (step s a).toList.map fun t => ((all.idxOf s, a), all.idxOf t)

def stuckOn (step : σ → Symbol → Option σ) (all : List σ) (as : List Symbol) (s : σ) :
    List Reading :=
  as.flatMap fun a => if (step s a).isNone then [(all.idxOf s, a)] else []

theorem lookup_zipIdx (xs : List σ) (k : Nat) (s : σ) :
    (xs.zipIdx k).lookup s = if s ∈ xs then some (k + xs.idxOf s) else none := by
  induction xs generalizing k with
  | nil => rfl
  | cons x xs ih =>
    by_cases eq : s = x
    · simp [eq]
    · have other : (s == x) = false := beq_eq_false_iff_ne.mpr eq
      rw [List.zipIdx_cons, List.lookup_cons, other, ih, List.idxOf_cons_ne _ (Ne.symm eq)]
      simp only [List.mem_cons, eq, false_or]
      split
      · congr 1
        omega
      · rfl

theorem meet_known {t : σ} (known : t ∈ listed) (later : listed <+: all) :
    (p.stage all listed queue moves accepting stuck events).meet t =
      (all.idxOf t, p.stage all listed queue moves accepting stuck events) := by
  have found : listed.zipIdx.lookup t = some (all.idxOf t) := by
    rw [lookup_zipIdx, if_pos known, Nat.zero_add, later.idxOf_eq_of_mem known]
  simp only [Building.meet, Blueprint.stage, found]

theorem meet_new {t : σ} (new : t ∉ listed) (later : listed ++ [t] <+: all) :
    (p.stage all listed queue moves accepting stuck events).meet t =
      (all.idxOf t,
        p.stage all (listed ++ [t]) (queue ++ [t]) moves accepting stuck events) := by
  have missing : listed.zipIdx.lookup t = none := by
    rw [lookup_zipIdx, if_neg new]
  have place : all.idxOf t = listed.length := by
    rw [← later.idxOf_eq_of_mem (by simp), List.idxOf_append_of_notMem new]
    simp
  have numbers : listed.zipIdx ++ [(t, listed.length)] = (listed ++ [t]).zipIdx := by
    rw [List.zipIdx_append]
    simp
  simp only [Building.meet, Blueprint.stage, missing, Draft.addState, place, numbers]
  simp [place]

theorem addEdge_ofList {d : Draft} {q r : StateId} {a : Symbol} (rows : d.table = .ofList moves)
    (readable : a ≠ Symbol.epsilon) (known : a ∈ d.alphabet) : d.addEdge ⟨q, a, r⟩ =
      .ok { d with table := .ofList (moves ++ [((q, a), r)]) } := by
  have same : d.alphabet.insert a = d.alphabet := insert_eq_self known
  have table : d.table.insert (q, a) r = .ofList (moves ++ [((q, a), r)]) := by
    rw [rows]
    simp [Std.ExtTreeMap.ofList_eq_insertMany_empty, Std.ExtTreeMap.insertMany_append]
  rw [Draft.addEdge, if_neg (by simpa using readable)]
  simp only [same, table]

theorem move_stuck (follows : p.Follows step) {s : σ} {a : Symbol} (ha : a ∈ p.alphabet)
    (missing : step s a = none) :
    p.move (all.idxOf s) s (p.stage all listed queue moves accepting stuck events) a =
      .ok (p.stage all listed queue moves accepting (stuck ++ [(all.idxOf s, a)]) events) := by
  rw [Blueprint.move, follows.next?_eq s a ha, missing]
  rfl

theorem move_meet (follows : p.Follows step) {listed' queue' : List σ} {s t : σ} {a : Symbol}
    (ha : a ∈ p.alphabet) (next : step s a = some t)
    (met : (p.stage all listed queue moves accepting stuck events).meet t =
      (all.idxOf t, p.stage all listed' queue' moves accepting stuck events)) :
    p.move (all.idxOf s) s (p.stage all listed queue moves accepting stuck events) a =
      .ok (p.stage all listed' queue' (moves ++ [((all.idxOf s, a), all.idxOf t)]) accepting stuck
        events) := by
  have readable : a ≠ Symbol.epsilon := fun eq => follows.epsilon_not_mem (eq ▸ ha)
  have added : Draft.addEdge (p.stage all listed' queue' moves accepting stuck events).draft
      ⟨all.idxOf s, a, all.idxOf t⟩ = .ok (p.stage all listed' queue'
        (moves ++ [((all.idxOf s, a), all.idxOf t)]) accepting stuck events).draft :=
    addEdge_ofList rfl readable ha
  rw [Blueprint.move, follows.next?_eq s a ha, next]
  simp only [bind, Except.bind, met, added]
  rfl

theorem foldlM_move (follows : p.Follows step) {s : σ} {as : List Symbol}
    (has : ∀ a ∈ as, a ∈ p.alphabet)
    (later : listed ++ fresh listed (as.filterMap (step s)) <+: all) :
    as.foldlM (p.move (all.idxOf s) s) (p.stage all listed queue moves accepting stuck events) =
      .ok (p.stage all (listed ++ fresh listed (as.filterMap (step s)))
        (queue ++ fresh listed (as.filterMap (step s))) (moves ++ movesOn step all as s) accepting
        (stuck ++ stuckOn step all as s) events) := by
  -- From the end of the list, since `fresh_concat` says what one more symbol adds.
  induction as using List.reverseRecOn with
  | nil => simp [fresh, movesOn, stuckOn, pure, Except.pure]
  | append_singleton as a ih =>
    have ha : a ∈ p.alphabet := has a (by simp)
    have before : ∀ b ∈ as, b ∈ p.alphabet := fun b hb => has b (List.mem_append_left _ hb)
    rw [List.filterMap_append] at later
    rw [List.foldlM_append, List.filterMap_append]
    cases found : step s a with
    | none =>
      have last : [a].filterMap (step s) = [] := by simp [found]
      rw [last, List.append_nil] at later ⊢
      rw [ih before later]
      refine (bind_pure _).trans ((move_stuck follows ha found).trans ?_)
      simp [movesOn, stuckOn, found]
    | some t =>
      have last : [a].filterMap (step s) = [t] := by simp [found]
      rw [last, fresh_concat] at later ⊢
      by_cases old : t ∈ listed ∨ t ∈ as.filterMap (step s)
      · have known : t ∈ listed ++ fresh listed (as.filterMap (step s)) := by
          rw [List.mem_append, mem_fresh]
          tauto
        rw [if_pos old] at later ⊢
        rw [ih before later]
        refine (bind_pure _).trans ((move_meet follows ha found (meet_known known later)).trans ?_)
        simp [movesOn, stuckOn, found]
      · have new : t ∉ listed ++ fresh listed (as.filterMap (step s)) := by
          rw [List.mem_append, mem_fresh]
          tauto
        rw [if_neg old, ← List.append_assoc] at later
        rw [if_neg old, ih before ((List.prefix_append _ _).trans later)]
        refine (bind_pure _).trans ((move_meet follows ha found (meet_new new later)).trans ?_)
        simp [movesOn, stuckOn, found]

/-- The construction when `done` was expanded and `queue` is still to be. -/
def Blueprint.after (p : Blueprint σ) (step : σ → Symbol → Option σ) (all done queue : List σ) :
    Building σ :=
  p.stage all (done ++ queue) queue (done.flatMap (movesOn step all p.alphabet.toList))
    ((done.filter p.accepts).map all.idxOf) (done.flatMap (stuckOn step all p.alphabet.toList))
    (done.flatMap fun s => p.events (all.idxOf s) s)

theorem turn?_eq_foldlM (done : List σ) (s : σ) :
    p.turn? (p.after step all done (s :: queue)) = some (p.alphabet.toList.foldlM
      (p.move (all.idxOf s) s) (p.stage all (done ++ s :: queue) queue
        (done.flatMap (movesOn step all p.alphabet.toList))
        (((done ++ [s]).filter p.accepts).map all.idxOf)
        (done.flatMap (stuckOn step all p.alphabet.toList))
        ((done ++ [s]).flatMap fun s => p.events (all.idxOf s) s))) := by
  have marked (qs : List StateId) : (Std.ExtTreeSet.ofList qs : StateSet).insert (all.idxOf s) =
      .ofList (qs ++ [all.idxOf s]) := by
    simp [Std.ExtTreeSet.ofList_eq_insertMany_empty, Std.ExtTreeSet.insertMany_append]
  cases judged : p.accepts s with
  | false => simp [Blueprint.turn?, Blueprint.after, Blueprint.stage, judged]
  | true =>
    simp [Blueprint.turn?, Blueprint.after, Blueprint.stage, judged, Draft.addAccepting, marked]

/-- The numbers of the successors are those of the final list, which the turn goes on filling. -/
theorem turn?_after (follows : p.Follows step) {done : List σ} {s : σ}
    (later : done ++ s :: queue ++ fresh (done ++ s :: queue)
      (p.alphabet.toList.filterMap (step s)) <+: all) :
    p.turn? (p.after step all done (s :: queue)) = some (.ok (p.after step all (done ++ [s])
      (queue ++ fresh (done ++ s :: queue) (p.alphabet.toList.filterMap (step s))))) := by
  have spelled : ∀ a ∈ p.alphabet.toList, a ∈ p.alphabet :=
    fun a ha => Std.ExtTreeSet.mem_toList.mp ha
  rw [turn?_eq_foldlM, foldlM_move follows spelled later, Blueprint.after]
  simp

theorem turns_after (follows : p.Follows step) {x : List σ × List σ}
    (turns : ReflTransGen (Turn fun s => p.alphabet.toList.filterMap (step s)) x (all, [])) :
    p.Turns (p.after step all x.1 x.2) (p.after step all all []) := by
  induction turns using ReflTransGen.head_induction_on with
  | refl => exact .refl
  | head turn turns ih =>
    have later := prefix_of_turns turns
    cases turn with
    | expand done queue s =>
      refine ReflTransGen.head (turn?_after follows ?_) ih
      simpa using later

theorem begin_eq_after (follows : p.Follows step) (head : all.head? = some p.init) :
    p.begin = p.after step all [] [p.init] := by
  have alphabet : p.alphabet.readable = p.alphabet := by
    apply Std.ExtTreeSet.ext_mem
    intro a
    rw [SymbolSet.mem_readable, and_iff_left_of_imp]
    exact fun ha eq => follows.epsilon_not_mem (eq ▸ ha)
  have first : all.idxOf p.init = 0 := by
    obtain ⟨rest, eq⟩ := List.head?_eq_some_iff.mp head
    rw [eq, List.idxOf_cons_self]
  simp [Blueprint.begin, Blueprint.after, Blueprint.stage, Draft.ofAlphabet, Draft.addState,
    Draft.setStart, alphabet, first]

end Stages

end RightLinear
