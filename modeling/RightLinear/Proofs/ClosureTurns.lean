import RightLinear.Proofs.SilentClosure

namespace RightLinear.Nfa

open Relation

/-- A closure under way.  In the queue are the members whose silent moves were not followed yet. -/
structure Closing where
  members : StateSet
  queue : List StateId

/-- A state that a silent move leads to joins the members, and the queue if it was missing. -/
def Closing.meet (c : Closing) (q : StateId) : Closing :=
  let (missing, members) := c.members.add q
  ⟨members, if missing then c.queue ++ [q] else c.queue⟩

/-- One turn: the front of the queue is left behind, and what its silent moves lead to is met. -/
def closeTurn? (n : Nfa) : Closing → Option Closing
  | ⟨_, []⟩ => none
  | ⟨members, q :: queue⟩ => some ((n.silentTargets q).foldl Closing.meet ⟨members, queue⟩)

def CloseTurns (n : Nfa) : Closing → Closing → Prop :=
  ReflTransGen fun c c' => n.closeTurn? c = some c'

section Turns

/-- The closure under way when `done` was followed and `queue` is still to be. -/
def Closing.of (done queue : List StateId) : Closing := ⟨.ofList (done ++ queue), queue⟩

theorem meet_ofList (seen queue : List StateId) (q : StateId) :
    Closing.meet ⟨.ofList seen, queue⟩ q =
      if q ∈ seen then ⟨.ofList seen, queue⟩ else ⟨.ofList (q :: seen), queue ++ [q]⟩ := by
  have missing : (StateSet.add (.ofList seen) q).1 = decide (q ∉ seen) := by
    rw [Bool.eq_iff_iff, StateSet.add_fst_iff, StateSet.mem_ofList, decide_eq_true_iff]
  have members : (StateSet.add (.ofList seen) q).2 = .ofList (q :: seen) := by
    apply Std.ExtTreeSet.ext_mem
    intro p
    rw [StateSet.mem_add, StateSet.mem_ofList, StateSet.mem_ofList, List.mem_cons]
  have added : StateSet.add (.ofList seen) q = (decide (q ∉ seen), .ofList (q :: seen)) :=
    Prod.ext missing members
  simp only [Closing.meet, added]
  by_cases known : q ∈ seen
  · have same : (.ofList (q :: seen) : StateSet) = .ofList seen := by
      apply StateSet.ofList_congr
      intro p
      rw [List.mem_cons, or_iff_right_of_imp]
      exact fun eq => eq ▸ known
    simp [known, same]
  · simp [known]

theorem foldl_meet (seen queue xs : List StateId) :
    xs.foldl Closing.meet ⟨.ofList seen, queue⟩ =
      ⟨.ofList (seen ++ fresh seen xs), queue ++ fresh seen xs⟩ := by
  induction xs generalizing seen queue with
  | nil => simp [fresh]
  | cons q xs ih =>
    rw [List.foldl_cons, meet_ofList]
    by_cases known : q ∈ seen
    · rw [if_pos known, ih, fresh, if_pos known]
    · have listed : (.ofList (q :: seen ++ fresh (q :: seen) xs) : StateSet) =
          .ofList (seen ++ q :: fresh (q :: seen) xs) :=
        StateSet.ofList_congr fun p => by simp [or_left_comm]
      rw [if_neg known, ih, fresh, if_neg known, listed, List.append_assoc, List.singleton_append]

theorem closeTurn?_of (n : Nfa) (done queue : List StateId) (q : StateId) :
    n.closeTurn? (.of done (q :: queue)) = some
      (.of (done ++ [q]) (queue ++ fresh (done ++ q :: queue) (n.silentTargets q))) := by
  rw [Closing.of, closeTurn?, foldl_meet, Closing.of]
  simp

/-- The turns of the search that finds the closure are turns of a closure under way. -/
theorem closeTurns_of_turns {n : Nfa} {x y : List StateId × List StateId}
    (turns : ReflTransGen (Turn n.silentTargets) x y) :
    n.CloseTurns (.of x.1 x.2) (.of y.1 y.2) := by
  apply turns.lift fun x => Closing.of x.1 x.2
  intro x y turn
  cases turn with
  | expand done queue q => exact closeTurn?_of n done queue q

theorem closeTurns_closure (n : Nfa) (s : StateSet) :
    n.CloseTurns ⟨s, s.toList⟩ ⟨n.closure s, []⟩ := by
  have turns := completes_explore (n.silentSpace_closed s) s.nodup_toList
    (n.toList_subset_silentSpace s) (Nat.le_of_eq (n.length_silentSpace s))
  have start : Closing.of [] s.toList = ⟨s, s.toList⟩ := by
    rw [Closing.of, List.nil_append, StateSet.ofList_toList]
  have last (listed : List StateId) : Closing.of listed [] = ⟨.ofList listed, []⟩ := by
    rw [Closing.of, List.append_nil]
  have run := closeTurns_of_turns turns
  rwa [start, last] at run

end Turns

section Laws

def SilentMove (n : Nfa) (p q : StateId) : Prop := ⟨p, Symbol.epsilon, q⟩ ∈ n.edges

/-- Of the sets that hold `s` and that no silent move leads out of, `t` is the least. -/
structure IsSilentClosure (n : Nfa) (s t : StateSet) : Prop where
  holds : ∀ q ∈ s, q ∈ t
  closed : ∀ p ∈ t, ∀ q, n.SilentMove p q → q ∈ t
  least : ∀ u : Set StateId, (∀ q ∈ s, q ∈ u) → (∀ p ∈ u, ∀ q, n.SilentMove p q → q ∈ u) →
    ∀ q ∈ t, q ∈ u

variable {n : Nfa} {s t : StateSet}

theorem mem_closure_iff_silentMoves {q : StateId} :
    q ∈ n.closure s ↔ ∃ p ∈ s, ReflTransGen n.SilentMove p q := by
  have moves : n.SilentMove = fun p q => q ∈ n.silentTargets p := by
    funext p q
    exact propext mem_silentTargets.symm
  simp only [mem_closure_iff, path_nil_iff, moves]

theorem isSilentClosure_closure (n : Nfa) (s : StateSet) : n.IsSilentClosure s (n.closure s) where
  holds q hq := mem_closure_iff_silentMoves.mpr ⟨q, hq, .refl⟩
  closed p hp q move := by
    obtain ⟨r, hr, moves⟩ := mem_closure_iff_silentMoves.mp hp
    exact mem_closure_iff_silentMoves.mpr ⟨r, hr, moves.tail move⟩
  least u holds closed q hq := by
    obtain ⟨p, hp, moves⟩ := mem_closure_iff_silentMoves.mp hq
    induction moves with
    | refl => exact holds p hp
    | tail before move ih =>
      exact closed _ (ih (mem_closure_iff_silentMoves.mpr ⟨p, hp, before⟩)) _ move

theorem closure_subset_of_closed (holds : ∀ q ∈ s, q ∈ t)
    (closed : ∀ p ∈ t, ∀ q, n.SilentMove p q → q ∈ t) : ∀ q ∈ n.closure s, q ∈ t :=
  (n.isSilentClosure_closure s).least {q | q ∈ t} holds closed

theorem closure_mono (sub : ∀ q ∈ s, q ∈ t) : ∀ q ∈ n.closure s, q ∈ n.closure t := by
  have larger := n.isSilentClosure_closure t
  exact closure_subset_of_closed (fun q hq => larger.holds q (sub q hq)) larger.closed

theorem closure_closure (n : Nfa) (s : StateSet) : n.closure (n.closure s) = n.closure s := by
  apply Std.ExtTreeSet.ext_mem
  intro q
  constructor
  · exact closure_subset_of_closed (fun _ hp => hp) (n.isSilentClosure_closure s).closed q
  · exact (n.isSilentClosure_closure (n.closure s)).holds q

/-- Silent moves start from one state at a time, so nothing more is reached from two sets at
once. -/
theorem closure_union (n : Nfa) (s t : StateSet) :
    n.closure (s ∪ t) = n.closure s ∪ n.closure t := by
  apply Std.ExtTreeSet.ext_mem
  intro q
  simp only [Std.ExtTreeSet.mem_union_iff, mem_closure_iff_silentMoves, or_and_right, exists_or]

end Laws

/-- The turns come to an end with the states that silent moves lead to from `s`, which are the least
closed set that holds `s`.  Hence a closure grows with its set, is its own closure, and the closure
of a union is that of its parts. -/
theorem closure_ends_with_silent_reach (n : Nfa) (s : StateSet) :
    (∃ c, n.CloseTurns ⟨s, s.toList⟩ c ∧ n.closeTurn? c = none ∧ c.members = n.closure s) ∧
    (∀ q, q ∈ n.closure s ↔ ∃ p ∈ s, ReflTransGen n.SilentMove p q) ∧
    n.IsSilentClosure s (n.closure s) ∧
    (∀ q ∈ s, q ∈ n.closure s) ∧
    (∀ t, (∀ q ∈ s, q ∈ t) → ∀ q ∈ n.closure s, q ∈ n.closure t) ∧
    n.closure (n.closure s) = n.closure s ∧
    ∀ t, n.closure (s ∪ t) = n.closure s ∪ n.closure t := by
  have ends : ∃ c, n.CloseTurns ⟨s, s.toList⟩ c ∧ n.closeTurn? c = none ∧
      c.members = n.closure s := ⟨_, closeTurns_closure n s, rfl, rfl⟩
  exact ⟨ends, fun q => mem_closure_iff_silentMoves, isSilentClosure_closure n s,
    (isSilentClosure_closure n s).holds, fun t sub => closure_mono sub, closure_closure n s,
    closure_union n s⟩

/-- Two states without names that lead to each other, one of them also to itself and to a third. -/
def unnamedCycle : Nfa :=
  ((((ofAlphabet ∅).addSilent 7 9).addSilent 9 7).addSilent 9 9).addSilent 9 4

theorem closure_ends_with_silent_reach_unnamedCycle : unnamedCycle.numStates = 0 ∧
    (∀ q ∈ ({7} : StateSet), q ∈ ({7, 11} : StateSet)) ∧
    (∃ c, unnamedCycle.CloseTurns ⟨{7}, [7]⟩ c ∧ unnamedCycle.closeTurn? c = none ∧
      c.members = unnamedCycle.closure {7}) ∧
    unnamedCycle.closure {7} = {4, 7, 9} ∧
    (∀ q ∈ unnamedCycle.closure {7}, q ∈ unnamedCycle.closure {7, 11}) ∧
    unnamedCycle.closure ({7} ∪ {11}) = unnamedCycle.closure {7} ∪ unnamedCycle.closure {11} := by
  have larger : ∀ q ∈ ({7} : StateSet), q ∈ ({7, 11} : StateSet) := by
    intro q hq
    have eq : 7 = q := by simpa using hq
    rw [← eq]
    decide
  have ⟨ends, _, _, _, mono, _, union⟩ := closure_ends_with_silent_reach unnamedCycle {7}
  exact ⟨rfl, larger, ends, by decide +kernel, mono _ larger, union _⟩

end RightLinear.Nfa
