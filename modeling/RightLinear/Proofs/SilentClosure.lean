import RightLinear.Nfa.Path
import RightLinear.Nfa.Run
import RightLinear.Proofs.Discovery

namespace RightLinear.Nfa

open Relation

def targets (n : Nfa) : List StateId := n.edges.toList.map Edge.target

theorem length_targets (n : Nfa) : n.targets.length = n.edges.size := by
  rw [targets, List.length_map, Std.ExtTreeSet.length_toList]

theorem mem_targets_of_edge {n : Nfa} {e : Edge} (h : e ∈ n.edges) : e.target ∈ n.targets :=
  List.mem_map.mpr ⟨e, Std.ExtTreeSet.mem_toList.mpr h, rfl⟩

theorem mem_silentTargets {n : Nfa} {p q : StateId} :
    q ∈ n.silentTargets p ↔ ⟨p, Symbol.epsilon, q⟩ ∈ n.edges := by
  rw [silentTargets, Std.ExtTreeSet.mem_toList, mem_image]
  constructor
  · intro h
    obtain ⟨r, hr, he⟩ := h
    have eq : p = r := by simpa using hr
    rw [eq]
    exact he
  · intro he
    exact ⟨p, by simp, he⟩

theorem path_nil_iff {n : Nfa} {p q : StateId} :
    n.Path p [] q ↔ ReflTransGen (fun p q => q ∈ n.silentTargets p) p q := by
  constructor
  · intro path
    generalize hw : ([] : Word) = w at path
    induction path with
    | nil q => exact .refl
    | silent he _ ih => exact .head (mem_silentTargets.mpr he) (ih hw)
    | read => simp at hw
  · intro steps
    induction steps using ReflTransGen.head_induction_on with
    | refl => exact .nil q
    | head step _ ih => exact .silent (mem_silentTargets.mp step) ih

/-- Where the search for the closure of a set takes place. -/
def silentSpace (n : Nfa) (s : StateSet) : List StateId := s.toList ++ n.targets

theorem toList_subset_silentSpace (n : Nfa) (s : StateSet) : ∀ p ∈ s.toList, p ∈ n.silentSpace s :=
  fun _ hp => List.mem_append_left _ hp

theorem silentSpace_closed (n : Nfa) (s : StateSet) :
    ∀ p ∈ n.silentSpace s, ∀ q ∈ n.silentTargets p, q ∈ n.silentSpace s := by
  intro p _ q hq
  exact List.mem_append_right _ (mem_targets_of_edge (mem_silentTargets.mp hq))

theorem length_silentSpace (n : Nfa) (s : StateSet) :
    (n.silentSpace s).length = s.size + n.edges.size := by
  rw [silentSpace, List.length_append, Std.ExtTreeSet.length_toList, length_targets]

theorem mem_closure_iff {n : Nfa} {s : StateSet} {q : StateId} :
    q ∈ n.closure s ↔ ∃ p ∈ s, n.Path p [] q := by
  have found := mem_explore_iff (n.silentSpace_closed s) s.nodup_toList
    (n.toList_subset_silentSpace s) (Nat.le_of_eq (n.length_silentSpace s)) q
  rw [closure, Std.ExtTreeSet.mem_ofList, List.contains_iff_mem, found]
  simp only [Std.ExtTreeSet.mem_toList, path_nil_iff]

theorem closure_empty (n : Nfa) : n.closure ∅ = ∅ := by
  apply Std.ExtTreeSet.eq_empty_iff_forall_not_mem.mpr
  intro q hq
  obtain ⟨p, hp, _⟩ := mem_closure_iff.mp hq
  exact Std.ExtTreeSet.not_mem_empty hp

/-- No silent move leads out of the set. -/
def IsClosed (n : Nfa) (s : StateSet) : Prop := ∀ p ∈ s, ∀ q, n.Path p [] q → q ∈ s

theorem isClosed_closure (n : Nfa) (s : StateSet) : n.IsClosed (n.closure s) := by
  intro p hp q path
  obtain ⟨r, hr, before⟩ := mem_closure_iff.mp hp
  exact mem_closure_iff.mpr ⟨r, hr, before.append path⟩

end RightLinear.Nfa
