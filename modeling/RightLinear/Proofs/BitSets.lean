import Mathlib.Data.Finset.Sort
import RightLinear.StateSet.Bits

namespace RightLinear

theorem eq_sort_of_ascending {qs : List StateId} {F : Finset StateId}
    (ascending : qs.Pairwise (· < ·)) (h : ∀ q, q ∈ qs ↔ q ∈ F) : qs = F.sort (· ≤ ·) := by
  have eq : F = qs.toFinset := by
    ext q
    rw [List.mem_toFinset, h]
  have nodup : qs.Nodup := ascending.imp Nat.ne_of_lt
  rw [eq]
  exact ((List.toFinset_sort (· ≤ ·) nodup).mpr (ascending.imp Nat.le_of_lt)).symm

theorem sort_inj {F G : Finset StateId} : F.sort (· ≤ ·) = G.sort (· ≤ ·) ↔ F = G := by
  refine ⟨fun eq => ?_, fun eq => eq ▸ rfl⟩
  rw [← Finset.sort_toFinset F (· ≤ ·), eq, Finset.sort_toFinset]

namespace BitSet

variable {β : Type} [BitRow β]

theorem feed_append (s : BitSet β) : s.feed (fun fed q => fed ++ [q]) [] = s.members := by
  rw [feed, List.foldl_append_eq_append, List.nil_append, ← List.flatMap_def,
    List.flatMap_singleton']

theorem feed_eq_of_same {s t : BitSet β} (same : s.same t = true) {η : Type}
    (write : η → StateId → η) (hasher : η) : s.feed write hasher = t.feed write hasher := by
  rw [BitSet.same, beq_iff_eq] at same
  rw [feed, feed, same]

/-- The bits that are set are those of the members, and each member can be told from the others. -/
structure Holds (s : BitSet β) (F : Finset StateId) : Prop where
  test_eq : ∀ i, BitRow.test s.bits i = decide (i ∈ F)
  lt_idCount : ∀ q ∈ F, q < idCount

variable [LawfulBitRow β] {s t : BitSet β} {F G : Finset StateId}

theorem Holds.lt_length (h : s.Holds F) {q : StateId} (mem : q ∈ F) : q < BitRow.length s.bits := by
  by_contra beyond
  have unset := LawfulBitRow.test_of_length_le s.bits q (Nat.le_of_not_lt beyond)
  rw [h.test_eq, decide_eq_false_iff_not] at unset
  exact unset mem

theorem Holds.mem_filter_iff (h : s.Holds F) (q : StateId) :
    q ∈ (List.range (BitRow.length s.bits)).filter (BitRow.test s.bits) ↔ q ∈ F := by
  rw [List.mem_filter, List.mem_range, h.test_eq, decide_eq_true_eq]
  exact ⟨And.right, fun mem => ⟨h.lt_length mem, mem⟩⟩

theorem Holds.filter_eq (h : s.Holds F) :
    (List.range (BitRow.length s.bits)).filter (BitRow.test s.bits) = F.sort (· ≤ ·) :=
  eq_sort_of_ascending (List.pairwise_lt_range.filter _) h.mem_filter_iff

theorem Holds.members (h : s.Holds F) : s.members = F.sort (· ≤ ·) := by
  rw [BitSet.members, LawfulBitRow.ones_eq, h.filter_eq]
  -- every member is the state that its place stands for
  have fits : ∀ q ∈ F.sort (· ≤ ·), stateAt q = q := by
    intro q mem
    exact Nat.mod_eq_of_lt (h.lt_idCount q ((Finset.mem_sort _).mp mem))
  rw [List.map_congr_left fits, List.map_id']

theorem Holds.size (h : s.Holds F) : s.size = F.card := by
  rw [BitSet.size, LawfulBitRow.count_eq, List.countP_eq_length_filter, h.filter_eq,
    Finset.length_sort]

theorem Holds.isEmpty (h : s.Holds F) : s.isEmpty = decide (F = ∅) := by
  rw [Bool.eq_iff_iff, BitSet.isEmpty, LawfulBitRow.isClear_iff, decide_eq_true_eq,
    Finset.eq_empty_iff_forall_notMem]
  simp only [h.test_eq, decide_eq_false_iff_not]

theorem Holds.meets (h : s.Holds F) (h' : t.Holds G) : s.meets t = decide (∃ q ∈ F, q ∈ G) := by
  rw [BitSet.meets, LawfulBitRow.intersection_eq, Bool.eq_iff_iff, Bool.not_eq_true',
    List.isEmpty_eq_false_iff_exists_mem, decide_eq_true_eq]
  simp only [List.mem_filter, List.mem_range, h.test_eq, h'.test_eq, Bool.and_eq_true,
    decide_eq_true_eq]
  constructor
  · rintro ⟨q, _, mem, mem'⟩
    exact ⟨q, mem, mem'⟩
  · rintro ⟨q, mem, mem'⟩
    exact ⟨q, h.lt_length mem, mem, mem'⟩

theorem Holds.same (h : s.Holds F) (h' : t.Holds G) : s.same t = decide (F = G) := by
  rw [BitSet.same, h.members, h'.members, Bool.eq_iff_iff, beq_iff_eq, decide_eq_true_eq,
    sort_inj]

theorem holds_withCapacity (n : Nat) : (withCapacity n : BitSet β).Holds ∅ where
  test_eq i := LawfulBitRow.test_clear n i
  lt_idCount q mem := absurd mem (Finset.notMem_empty q)

theorem holds_full {n : Nat} (fits : ∀ q < n, q < idCount) :
    (full n : BitSet β).Holds (Finset.range n) where
  test_eq i := by
    rw [full, LawfulBitRow.test_setAll, LawfulBitRow.length_clear]
    exact decide_eq_decide.mpr Finset.mem_range.symm
  lt_idCount q mem := fits q (Finset.mem_range.mp mem)

theorem lt_length_grownFor (s : BitSet β) (q : StateId) : q < BitRow.length (s.grownFor q) := by
  rw [grownFor]
  split
  next short =>
    rw [LawfulBitRow.length_grow]
    exact Nat.lt_of_lt_of_le q.lt_succ_self (Nat.le_max_right _ _)
  next long => exact Nat.lt_of_not_le long

theorem test_grownFor (s : BitSet β) (q : StateId) (i : Nat) :
    BitRow.test (s.grownFor q) i = BitRow.test s.bits i := by
  rw [grownFor]
  split
  · exact LawfulBitRow.test_grow s.bits (q + 1) i
  · rfl

theorem Holds.insert? (h : s.Holds F) {q : StateId} (fits : q < idCount) :
    ∃ t : BitSet β, s.insert? q = some (decide (q ∉ F), t) ∧ t.Holds (insert q F) := by
  obtain ⟨bits, put, test⟩ := LawfulBitRow.put?_of_lt _ q (lt_length_grownFor s q)
  refine ⟨⟨bits⟩, ?_, ?_, ?_⟩
  · rw [BitSet.insert?, put, Option.map_some, test_grownFor, h.test_eq, decide_not]
  · intro i
    rw [test, test_grownFor, h.test_eq]
    simp only [Finset.mem_insert, Bool.decide_or, beq_eq_decide]
  · exact (Finset.forall_mem_insert _ _ _).mpr ⟨fits, h.lt_idCount⟩

theorem Holds.insertAll? (h : s.Holds F) {qs : List StateId} (fit : ∀ q ∈ qs, q < idCount) :
    ∃ t : BitSet β, s.insertAll? qs = some t ∧ t.Holds (F ∪ qs.toFinset) := by
  induction qs generalizing s F with
  | nil => exact ⟨s, rfl, by rwa [List.toFinset_nil, Finset.union_empty]⟩
  | cons q qs ih =>
    obtain ⟨first, rest⟩ := List.forall_mem_cons.mp fit
    obtain ⟨t, added, h'⟩ := h.insert? first
    obtain ⟨u, addedAll, h''⟩ := ih h' rest
    refine ⟨u, ?_, ?_⟩
    · rw [BitSet.insertAll?, List.foldlM_cons, added]
      exact addedAll
    · rwa [List.toFinset_cons, Finset.union_insert, ← Finset.insert_union]

theorem exists_singleton? {q : StateId} (n : Nat) (fits : q < idCount) :
    ∃ s : BitSet β, singleton? q n = some s ∧ s.Holds {q} := by
  have empty : (withCapacity n : BitSet β).Holds ∅ := holds_withCapacity n
  obtain ⟨s, added, h⟩ := empty.insert? fits
  refine ⟨s, ?_, h⟩
  rw [singleton?, added, Option.map_some]

theorem exists_ofList? {qs : List StateId} (fit : ∀ q ∈ qs, q < idCount) :
    ∃ s : BitSet β, ofList? qs = some s ∧ s.Holds qs.toFinset := by
  rw [← Finset.empty_union qs.toFinset]
  exact Holds.insertAll? (holds_withCapacity 0) fit

theorem Holds.unionWith (h : s.Holds F) (h' : t.Holds G) : (s.unionWith t).Holds (F ∪ G) where
  test_eq i := by
    have kept : BitRow.test (s.unionWith t).bits i =
        (BitRow.test s.bits i || BitRow.test t.bits i) := by
      rw [BitSet.unionWith, LawfulBitRow.test_unionWith]
      split
      · rw [LawfulBitRow.test_grow]
      · rfl
    rw [kept, h.test_eq, h'.test_eq, ← Bool.decide_or]
    exact decide_eq_decide.mpr Finset.mem_union.symm
  lt_idCount := Finset.forall_mem_union.mpr ⟨h.lt_idCount, h'.lt_idCount⟩

theorem Holds.difference (h : s.Holds F) (h' : t.Holds G) : (s.difference t).Holds (F \ G) where
  test_eq i := by
    rw [BitSet.difference, LawfulBitRow.test_differenceWith, h.test_eq, h'.test_eq, ← decide_not,
      ← Bool.decide_and]
    exact decide_eq_decide.mpr Finset.mem_sdiff.symm
  lt_idCount q mem := h.lt_idCount q (Finset.mem_sdiff.mp mem).1

end BitSet

structure WideBits where
  width : Nat
  vector : BitVec width

namespace WideBits

/-- Bit vectors as rows.  One that is written to gets the width that the result needs. -/
instance : BitRow WideBits where
  clear n := ⟨n, 0#n⟩
  length := width
  grow b n := ⟨max b.width n, b.vector.setWidth _⟩
  put? b i := if i < b.width
    then some (b.vector.getLsbD i, ⟨b.width, b.vector ||| .twoPow b.width i⟩) else none
  setAll b := ⟨b.width, .allOnes b.width⟩
  test b i := b.vector.getLsbD i
  isClear b := b.vector == 0#b.width
  count b := (List.range b.width).countP fun i => b.vector.getLsbD i
  ones b := (List.range b.width).filter fun i => b.vector.getLsbD i
  unionWith b c := ⟨max b.width c.width, b.vector.setWidth _ ||| c.vector.setWidth _⟩
  intersection b c := (List.range b.width).filter fun i =>
    b.vector.getLsbD i && c.vector.getLsbD i
  differenceWith b c := ⟨b.width, b.vector &&& ~~~c.vector.setWidth b.width⟩

theorem getLsbD_setWidth_of_le {m n : Nat} (x : BitVec m) (h : m ≤ n) (i : Nat) :
    (x.setWidth n).getLsbD i = x.getLsbD i := by
  rw [BitVec.getLsbD_setWidth, Bool.and_eq_right_iff_imp, decide_eq_true_eq]
  exact fun set => Nat.lt_of_lt_of_le (BitVec.lt_of_getLsbD set) h

theorem getLsbD_or_setWidth {m n : Nat} (x : BitVec m) (y : BitVec n) (i : Nat) :
    (x.setWidth (max m n) ||| y.setWidth (max m n)).getLsbD i = (x.getLsbD i || y.getLsbD i) := by
  rw [BitVec.getLsbD_or, getLsbD_setWidth_of_le x (Nat.le_max_left m n),
    getLsbD_setWidth_of_le y (Nat.le_max_right m n)]

theorem getLsbD_or_twoPow {n i : Nat} (x : BitVec n) (there : i < n) (j : Nat) :
    (x ||| .twoPow n i).getLsbD j = (j == i || x.getLsbD j) := by
  rw [BitVec.getLsbD_or, BitVec.getLsbD_twoPow, Bool.or_comm]
  by_cases same : j = i
  · simp [same, there]
  · simp [same, Ne.symm same]

theorem getLsbD_and_not_setWidth {m n : Nat} (x : BitVec m) (y : BitVec n) (i : Nat) :
    (x &&& ~~~y.setWidth m).getLsbD i = (x.getLsbD i && !y.getLsbD i) := by
  rw [BitVec.getLsbD_and, BitVec.getLsbD_not, BitVec.getLsbD_setWidth]
  cases set : x.getLsbD i with
  | false => rfl
  | true => simp [BitVec.lt_of_getLsbD set]

instance : LawfulBitRow WideBits where
  length_clear n := rfl
  test_clear n i := BitVec.getLsbD_zero
  test_of_length_le b i beyond := BitVec.getLsbD_of_ge b.vector i beyond
  length_grow b n := rfl
  test_grow b n i := getLsbD_setWidth_of_le b.vector (Nat.le_max_left _ _) i
  put?_of_lt b i there := ⟨_, if_pos there, getLsbD_or_twoPow b.vector there⟩
  test_setAll b i := BitVec.getLsbD_allOnes
  isClear_iff b := by
    refine beq_iff_eq.trans ⟨fun clear i => ?_, fun unset => ?_⟩
    · exact (congrArg (BitVec.getLsbD · i) clear).trans BitVec.getLsbD_zero
    · exact BitVec.eq_of_getLsbD_eq fun i _ => (unset i).trans BitVec.getLsbD_zero.symm
  count_eq _ := rfl
  ones_eq _ := rfl
  test_unionWith b c := getLsbD_or_setWidth b.vector c.vector
  intersection_eq _ _ := rfl
  test_differenceWith b c := getLsbD_and_not_setWidth b.vector c.vector

end WideBits

end RightLinear
