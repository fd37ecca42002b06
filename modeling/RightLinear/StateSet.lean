import Std.Data.ExtTreeSet

namespace RightLinear

/-- States are numbered from zero. -/
abbrev StateId := Nat

abbrev StateSet := Std.ExtTreeSet StateId

namespace StateSet

def full (n : Nat) : StateSet := .ofList (List.range n)

/-- Adds a state and says whether it was missing. -/
def add (s : StateSet) (q : StateId) : Bool × StateSet := (!s.contains q, s.insert q)

def addAll (s : StateSet) (qs : List StateId) : StateSet := s ∪ .ofList qs

def meets (s t : StateSet) : Bool := s.toList.any fun q => t.contains q

def text (s : StateSet) : String :=
  "\x7b" ++ ", ".intercalate (s.toList.map fun q => q.repr) ++ "\x7d"

@[simp] theorem mem_full (n : Nat) (q : StateId) : q ∈ full n ↔ q < n := by
  simp [full, Std.ExtTreeSet.mem_ofList]

theorem contains_insert (s : StateSet) (p q : StateId) :
    (s.insert q).contains p = (p == q || s.contains p) := by
  rw [Std.ExtTreeSet.contains_insert, Bool.eq_iff_iff, Bool.or_eq_true, Bool.or_eq_true,
    beq_iff_eq, beq_iff_eq, Std.LawfulEqCmp.compare_eq_iff_eq, eq_comm]

@[simp] theorem mem_add (s : StateSet) (p q : StateId) : p ∈ (s.add q).2 ↔ p = q ∨ p ∈ s := by
  simp only [add, Std.ExtTreeSet.mem_insert, Std.LawfulEqCmp.compare_eq_iff_eq]
  rw [eq_comm]

@[simp] theorem add_fst_iff (s : StateSet) (q : StateId) : (s.add q).1 = true ↔ q ∉ s := by
  rw [add, Std.ExtTreeSet.mem_iff_contains]
  simp only [Bool.not_eq_true', Bool.not_eq_true]

@[simp] theorem mem_addAll (s : StateSet) (qs : List StateId) (p : StateId) :
    p ∈ s.addAll qs ↔ p ∈ s ∨ p ∈ qs := by
  simp [addAll, Std.ExtTreeSet.mem_ofList, Std.ExtTreeSet.mem_union_iff]

theorem meets_iff (s t : StateSet) : s.meets t = true ↔ ∃ q, q ∈ s ∧ q ∈ t := by
  simp [meets]

theorem empty_meets (s : StateSet) : meets ∅ s = false := rfl

theorem mem_ofList (qs : List StateId) (q : StateId) : q ∈ (.ofList qs : StateSet) ↔ q ∈ qs := by
  rw [Std.ExtTreeSet.mem_ofList, List.contains_iff_mem]

theorem ofList_congr {ps qs : List StateId} (h : ∀ q, q ∈ ps ↔ q ∈ qs) :
    (.ofList ps : StateSet) = .ofList qs := by
  apply Std.ExtTreeSet.ext_mem
  intro q
  rw [mem_ofList, mem_ofList, h]

theorem ofList_toList (s : StateSet) : .ofList s.toList = s := by
  apply Std.ExtTreeSet.ext_mem
  intro q
  rw [mem_ofList, Std.ExtTreeSet.mem_toList]

theorem nodup_toList (s : StateSet) : s.toList.Nodup := by
  refine s.distinct_toList.imp fun {p q} h e => h ?_
  exact Std.LawfulEqCmp.compare_eq_iff_eq.mpr e

end StateSet

end RightLinear
