import RightLinear.Dfa.Basic

namespace RightLinear.Dfa

def successors (d : Dfa) (q : StateId) : List StateId := d.alphabet.toList.filterMap (d.next? q)

/-- A search under way.  A state may stand in the queue more than once, and it may still stand there
when it has been visited. -/
structure Search where
  visited : StateSet
  queue : List StateId

/-- The front of the queue has been visited and is left behind.  What its moves lead to joins the
queue unless it has been visited before. -/
def Search.visit (d : Dfa) (visited : StateSet) (q : StateId) (queue : List StateId) : Search :=
  let visited := visited.insert q
  ⟨visited, queue ++ (d.successors q).filter fun t => !visited.contains t⟩

/-- One turn of a search, or its answer: whether there is no accepting state to be found. -/
def turn (d : Dfa) : Search → Search ⊕ Bool
  | ⟨_, []⟩ => .inr true
  | ⟨visited, q :: queue⟩ =>
    if visited.contains q then .inl ⟨visited, queue⟩
    else if d.isAccepting q then .inr false
    else .inl (.visit d visited q queue)

theorem of_turn_eq_inl {d : Dfa} {s t : Search} (h : d.turn s = .inl t) :
    ∃ visited q queue, s = ⟨visited, q :: queue⟩ ∧
      (q ∈ visited ∧ t = ⟨visited, queue⟩ ∨
        q ∉ visited ∧ q ∉ d.accepting ∧ t = .visit d visited q queue) := by
  obtain ⟨visited, queue⟩ := s
  cases queue with
  | nil => simp [turn] at h
  | cons q queue =>
    refine ⟨visited, q, queue, rfl, ?_⟩
    simp only [turn] at h
    split at h
    · next old => exact Or.inl ⟨by simpa using old, (Sum.inl.inj h).symm⟩
    · next new =>
      split at h
      · cases h
      · next rejects =>
        refine Or.inr ⟨by simpa using new, ?_, (Sum.inl.inj h).symm⟩
        simpa [isAccepting] using rejects

theorem of_turn_eq_inr {d : Dfa} {s : Search} {answer : Bool} (h : d.turn s = .inr answer) :
    s.queue = [] ∧ answer = true ∨ ∃ q ∈ s.queue, q ∈ d.accepting ∧ answer = false := by
  obtain ⟨visited, queue⟩ := s
  cases queue with
  | nil => exact Or.inl ⟨rfl, (Sum.inr.inj h).symm⟩
  | cons q queue =>
    simp only [turn] at h
    split at h
    · cases h
    · split at h
      · next accepts =>
        refine Or.inr ⟨q, List.mem_cons_self, ?_, (Sum.inr.inj h).symm⟩
        simpa [isAccepting] using accepts
      · cases h

section Termination

def rowsFrom (d : Dfa) (q : StateId) : Nat := d.table.toList.countP fun row => row.1.1 == q

/-- How many rows of the table start in a state that was not visited. -/
def unvisitedRows (d : Dfa) (visited : StateSet) : Nat :=
  d.table.toList.countP fun row => !visited.contains row.1.1

/-- What a search has left to do.  A row can put one more state into the queue, but only when the
state that it starts in is visited. -/
def remaining (d : Dfa) (s : Search) : Nat := s.queue.length + d.unvisitedRows s.visited

def readings (d : Dfa) (q : StateId) : List Reading :=
  (d.alphabet.toList.filter fun a => (d.next? q a).isSome).map fun a => (q, a)

theorem nodup_readings (d : Dfa) (q : StateId) : (d.readings q).Nodup := by
  have distinct : d.alphabet.toList.Nodup := by
    refine d.alphabet.distinct_toList.imp fun {a b} h e => h ?_
    exact Std.LawfulEqCmp.compare_eq_iff_eq.2 e
  exact List.pairwise_map.2 ((distinct.filter _).imp fun h e => h (Prod.mk.inj e).2)

theorem readings_subset (d : Dfa) (q : StateId) :
    d.readings q ⊆ (d.table.toList.filter fun row => row.1.1 == q).map Prod.fst := by
  intro r hr
  obtain ⟨a, ha, rfl⟩ := List.mem_map.1 hr
  obtain ⟨t, move⟩ := Option.isSome_iff_exists.1 (List.mem_filter.1 ha).2
  have row : ((q, a), t) ∈ d.table.toList := Std.ExtTreeMap.mem_toList_iff_getElem?_eq_some.2 move
  exact List.mem_map.2 ⟨_, List.mem_filter.2 ⟨row, by simp⟩, rfl⟩

theorem length_successors_le (d : Dfa) (q : StateId) : (d.successors q).length ≤ d.rowsFrom q := by
  have bound := (d.nodup_readings q).length_le_of_subset (d.readings_subset q)
  rw [readings, List.length_map, List.length_map, ← List.countP_eq_length_filter,
    ← List.countP_eq_length_filter] at bound
  rwa [successors, List.length_filterMap_eq_countP]

theorem unvisitedRows_eq (d : Dfa) {visited : StateSet} {q : StateId} (new : q ∉ visited) :
    d.unvisitedRows visited = d.rowsFrom q + d.unvisitedRows (visited.insert q) := by
  have either : ∀ p : StateId, (if !visited.contains p then 1 else 0) =
      (if p == q then 1 else 0) + if !(visited.insert q).contains p then 1 else 0 := by
    intro p
    rw [StateSet.contains_insert]
    by_cases hp : p = q
    · simp [hp, new]
    · simp [hp]
  unfold unvisitedRows rowsFrom
  induction d.table.toList with
  | nil => rfl
  | cons row rows ih =>
    rw [List.countP_cons, List.countP_cons, List.countP_cons, ih, either]
    omega

theorem remaining_visit_lt (d : Dfa) {visited : StateSet} {q : StateId} (queue : List StateId)
    (new : q ∉ visited) :
    d.remaining (.visit d visited q queue) < d.remaining ⟨visited, q :: queue⟩ := by
  have rows := d.unvisitedRows_eq new
  have few := d.length_successors_le q
  have joining := List.length_filter_le (fun t => !(visited.insert q).contains t) (d.successors q)
  simp only [remaining, Search.visit, List.length_append, List.length_cons]
  omega

/-- Every turn leaves less to do. -/
theorem remaining_lt_of_turn {d : Dfa} {s t : Search} (h : d.turn s = .inl t) :
    d.remaining t < d.remaining s := by
  obtain ⟨visited, q, queue, rfl, ⟨_, rfl⟩ | ⟨new, _, rfl⟩⟩ := of_turn_eq_inl h
  · simp [remaining]
  · exact d.remaining_visit_lt queue new

end Termination

def answer (d : Dfa) (s : Search) : Bool :=
  match _turn : d.turn s with
  | .inl t => d.answer t
  | .inr a => a
termination_by d.remaining s
decreasing_by exact remaining_lt_of_turn _turn

/-- Whether no word is accepted.  Where no state accepts, nothing is searched. -/
def isEmpty (d : Dfa) : Bool := d.accepting.isEmpty || d.answer ⟨∅, [d.start]⟩

end RightLinear.Dfa
