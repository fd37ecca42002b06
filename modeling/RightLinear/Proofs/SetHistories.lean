import RightLinear.Proofs.BitSets
import RightLinear.StateSet.Calls

namespace RightLinear

namespace SetKind

/-- Finite sets, which have no capacity and whose insertions always come to a result. -/
instance : SetKind (Finset StateId) where
  withCapacity _ := ∅
  singleton? q _ := some {q}
  full := Finset.range
  ofList? qs := some qs.toFinset
  insert? s q := some (decide (q ∉ s), insert q s)
  insertAll? s qs := some (s ∪ qs.toFinset)
  unionWith s t := s ∪ t
  difference s t := s \ t
  contains s q := decide (q ∈ s)
  isEmpty s := decide (s = ∅)
  size := Finset.card
  members s := s.sort (· ≤ ·)
  meets s t := decide (∃ q ∈ s, q ∈ t)
  same s t := decide (s = t)
  fed s := s.sort (· ≤ ·)

/-- What it takes for sets of a kind to stand for finite sets. -/
structure Represents {σ : Type} [SetKind σ] (R : σ → Finset StateId → Prop) : Prop where
  withCapacity : ∀ n, R (withCapacity n) ∅
  singleton? : ∀ q n, q < idCount → ∃ s, singleton? q n = some s ∧ R s {q}
  full : ∀ n, (∀ q < n, q < idCount) → R (full n) (Finset.range n)
  ofList? : ∀ qs, (∀ q ∈ qs, q < idCount) → ∃ s, ofList? qs = some s ∧ R s qs.toFinset
  insert? : ∀ {s F}, R s F → ∀ q < idCount,
    ∃ t, insert? s q = some (decide (q ∉ F), t) ∧ R t (insert q F)
  insertAll? : ∀ {s F}, R s F → ∀ qs, (∀ q ∈ qs, q < idCount) →
    ∃ t, insertAll? s qs = some t ∧ R t (F ∪ qs.toFinset)
  unionWith : ∀ {s t F G}, R s F → R t G → R (unionWith s t) (F ∪ G)
  difference : ∀ {s t F G}, R s F → R t G → R (difference s t) (F \ G)
  contains : ∀ {s F}, R s F → ∀ q, contains s q = decide (q ∈ F)
  isEmpty : ∀ {s F}, R s F → isEmpty s = decide (F = ∅)
  size : ∀ {s F}, R s F → size s = F.card
  members : ∀ {s F}, R s F → members s = F.sort (· ≤ ·)
  meets : ∀ {s t F G}, R s F → R t G → meets s t = decide (∃ q ∈ F, q ∈ G)
  same : ∀ {s t F G}, R s F → R t G → same s t = decide (F = G)
  fed : ∀ {s F}, R s F → fed s = F.sort (· ≤ ·)

section Registers

variable {σ : Type} {R : σ → Finset StateId → Prop} {sets : List σ}
  {finsets : List (Finset StateId)}

theorem rel_getElem? (h : List.Forall₂ R sets finsets) (i : Nat) :
    Option.Rel R sets[i]? finsets[i]? := by
  induction h generalizing i with
  | nil => exact .none
  | cons first rest ih =>
    cases i with
    | zero => exact .some first
    | succ i => exact ih i

theorem forall₂_set (h : List.Forall₂ R sets finsets) (i : Nat) {s : σ} {F : Finset StateId}
    (new : R s F) : List.Forall₂ R (sets.set i s) (finsets.set i F) := by
  induction h generalizing i with
  | nil => exact .nil
  | cons first rest ih =>
    cases i with
    | zero => exact .cons new rest
    | succ i => exact .cons first (ih i)

/-- Both steps come to a result, with the same answer, and the registers still match. -/
def Agree (R : σ → Finset StateId → Prop) (a : Step σ) (b : Step (Finset StateId)) : Prop :=
  ∃ answer sets finsets, a = some (answer, sets) ∧ b = some (answer, finsets) ∧
    List.Forall₂ R sets finsets

theorem agree_look (h : List.Forall₂ R sets finsets) {answer answer' : Answer}
    (eq : answer = answer') : Agree R (look sets answer) (look finsets answer') :=
  ⟨answer, sets, finsets, rfl, congrArg (fun a => some (a, finsets)) eq.symm, h⟩

theorem agree_store (h : List.Forall₂ R sets finsets) {made : Option σ} {F : Finset StateId}
    (there : ∃ s, made = some s ∧ R s F) : Agree R (store sets made) (store finsets (some F)) := by
  obtain ⟨s, rfl, new⟩ := there
  exact ⟨.done, sets ++ [s], finsets ++ [F], rfl, rfl, List.rel_append h (.cons new .nil)⟩

theorem agree_set (h : List.Forall₂ R sets finsets) (answer : Answer) (i : Nat) {s : σ}
    {F : Finset StateId} (new : R s F) :
    Agree R (some (answer, sets.set i s)) (some (answer, finsets.set i F)) :=
  ⟨answer, sets.set i s, finsets.set i F, rfl, rfl, forall₂_set h i new⟩

theorem agree_withSet (h : List.Forall₂ R sets finsets) (i : Nat) {go : σ → Step σ}
    {go' : Finset StateId → Step (Finset StateId)}
    (onward : ∀ s F, R s F → Agree R (go s) (go' F)) :
    Agree R (withSet sets i go) (withSet finsets i go') := by
  rw [withSet, withSet]
  have register := rel_getElem? h i
  generalize sets[i]? = a, finsets[i]? = b at register ⊢
  cases register with
  | none => exact ⟨.noRegister, sets, finsets, rfl, rfl, h⟩
  | some held => exact onward _ _ held

end Registers

section Histories

variable {σ : Type} [SetKind σ] {R : σ → Finset StateId → Prop} {sets : List σ}
  {finsets : List (Finset StateId)}

/-- What one call keeps: the answer is that of finite sets, and the registers still match. -/
theorem Represents.perform (r : Represents R) (h : List.Forall₂ R sets finsets) (call : Call)
    (numbered : ∀ q ∈ call.added, q < idCount) :
    Agree R (perform sets call) (perform finsets call) := by
  cases call with
  | withCapacity n => exact agree_store h ⟨_, rfl, r.withCapacity n⟩
  | singleton q n =>
    exact agree_store h (r.singleton? q n (numbered q (List.mem_singleton.mpr rfl)))
  | full n =>
    exact agree_store h ⟨_, rfl, r.full n fun q below => numbered q (List.mem_range.mpr below)⟩
  | ofList qs => exact agree_store h (r.ofList? qs numbered)
  | clone i => exact agree_withSet h i fun s F held => agree_store h ⟨s, rfl, held⟩
  | insert i q =>
    apply agree_withSet h i
    intro s F held
    obtain ⟨t, added, new⟩ := r.insert? held q (numbered q (List.mem_singleton.mpr rfl))
    rw [added]
    exact agree_set h _ i new
  | insertAll i qs =>
    apply agree_withSet h i
    intro s F held
    obtain ⟨t, added, new⟩ := r.insertAll? held qs numbered
    rw [added]
    exact agree_set h _ i new
  | unionWith i j =>
    exact agree_withSet h i fun s F held => agree_withSet h j fun t G held' =>
      agree_set h _ i (r.unionWith held held')
  | difference i j =>
    exact agree_withSet h i fun s F held => agree_withSet h j fun t G held' =>
      agree_store h ⟨_, rfl, r.difference held held'⟩
  | contains i q =>
    exact agree_withSet h i fun s F held => agree_look h (congrArg _ (r.contains held q))
  | isEmpty i => exact agree_withSet h i fun s F held => agree_look h (congrArg _ (r.isEmpty held))
  | size i => exact agree_withSet h i fun s F held => agree_look h (congrArg _ (r.size held))
  | members i => exact agree_withSet h i fun s F held => agree_look h (congrArg _ (r.members held))
  | meets i j =>
    exact agree_withSet h i fun s F held => agree_withSet h j fun t G held' =>
      agree_look h (congrArg _ (r.meets held held'))
  | same i j =>
    exact agree_withSet h i fun s F held => agree_withSet h j fun t G held' =>
      agree_look h (congrArg _ (r.same held held'))
  | hash i => exact agree_withSet h i fun s F held => agree_look h (congrArg _ (r.fed held))

theorem answersFrom_cons {call : Call} {answer : Answer} {sets' : List σ}
    (done : SetKind.perform sets call = some (answer, sets')) (calls : List Call) :
    answersFrom sets (call :: calls) = (answersFrom sets' calls).map (answer :: ·) := by
  rw [answersFrom, done]
  rfl

/-- What all calls give, by induction on them: the registers match before each of them. -/
theorem Represents.answersFrom (r : Represents R) (h : List.Forall₂ R sets finsets)
    (calls : List Call) (numbered : ∀ call ∈ calls, ∀ q ∈ call.added, q < idCount) :
    ∃ as, answersFrom sets calls = some as ∧ answersFrom finsets calls = some as := by
  induction calls generalizing sets finsets with
  | nil => exact ⟨[], rfl, rfl⟩
  | cons call calls ih =>
    obtain ⟨first, rest⟩ := List.forall_mem_cons.mp numbered
    obtain ⟨answer, sets', finsets', done, done', h'⟩ := r.perform h call first
    obtain ⟨as, answered, answered'⟩ := ih h' rest
    refine ⟨answer :: as, ?_, ?_⟩
    · rw [answersFrom_cons done, answered, Option.map_some]
    · rw [answersFrom_cons done', answered', Option.map_some]

theorem Represents.answers (r : Represents R) (calls : List Call)
    (numbered : ∀ call ∈ calls, ∀ q ∈ call.added, q < idCount) :
    ∃ as, answers σ calls = some as ∧ answers (Finset StateId) calls = some as :=
  r.answersFrom .nil calls numbered

end Histories

end SetKind

namespace BitSet

theorem represents_holds (β : Type) [BitRow β] [LawfulBitRow β] :
    SetKind.Represents (@Holds β _) where
  withCapacity := holds_withCapacity
  singleton? _ n := exists_singleton? n
  full _ := holds_full
  ofList? _ := exists_ofList?
  insert? h _ := h.insert?
  insertAll? h _ := h.insertAll?
  unionWith h h' := h.unionWith h'
  difference h h' := h.difference h'
  contains h := h.test_eq
  isEmpty h := h.isEmpty
  size h := h.size
  members h := h.members
  meets h h' := h.meets h'
  same h h' := h.same h'
  fed {s _} h := (feed_append s).trans h.members

end BitSet

namespace StateSet

def Holds (s : StateSet) (F : Finset StateId) : Prop := ∀ q, q ∈ s ↔ q ∈ F

variable {s t : StateSet} {F G : Finset StateId}

theorem Holds.toList (h : s.Holds F) : s.toList = F.sort (· ≤ ·) := by
  apply eq_sort_of_ascending
  · exact s.ordered_toList.imp fun {p q} lt => Nat.compare_eq_lt.mp lt
  · intro q
    rw [Std.ExtTreeSet.mem_toList, h]

theorem Holds.size (h : s.Holds F) : s.size = F.card := by
  rw [← Std.ExtTreeSet.length_toList, h.toList, Finset.length_sort]

theorem Holds.contains (h : s.Holds F) (q : StateId) : s.contains q = decide (q ∈ F) := by
  rw [Bool.eq_iff_iff, ← Std.ExtTreeSet.mem_iff_contains, h, decide_eq_true_eq]

theorem Holds.meets (h : s.Holds F) (h' : t.Holds G) : s.meets t = decide (∃ q ∈ F, q ∈ G) := by
  rw [Bool.eq_iff_iff, meets_iff, decide_eq_true_eq]
  exact exists_congr fun q => and_congr (h q) (h' q)

theorem Holds.eq_iff (h : s.Holds F) (h' : t.Holds G) : s = t ↔ F = G := by
  constructor
  · rintro rfl
    exact Finset.ext fun q => (h q).symm.trans (h' q)
  · rintro rfl
    exact Std.ExtTreeSet.ext_mem fun q => (h q).trans (h' q).symm

theorem holds_empty : Holds ∅ ∅ :=
  fun q => iff_of_false Std.ExtTreeSet.not_mem_empty (Finset.notMem_empty q)

theorem Holds.isEmpty (h : s.Holds F) : s.isEmpty = decide (F = ∅) := by
  rw [Bool.eq_iff_iff, Std.ExtTreeSet.isEmpty_iff, h.eq_iff holds_empty, decide_eq_true_eq]

theorem Holds.add (h : s.Holds F) (q : StateId) :
    s.add q = (decide (q ∉ F), (s.add q).2) ∧ (s.add q).2.Holds (insert q F) := by
  constructor
  · rw [StateSet.add, h.contains, decide_not]
  · intro p
    rw [mem_add, Finset.mem_insert, h]

theorem Holds.addAll (h : s.Holds F) (qs : List StateId) :
    (s.addAll qs).Holds (F ∪ qs.toFinset) := by
  intro q
  rw [mem_addAll, Finset.mem_union, List.mem_toFinset, h]

theorem Holds.union (h : s.Holds F) (h' : t.Holds G) : Holds (s ∪ t) (F ∪ G) := by
  intro q
  rw [Std.ExtTreeSet.mem_union_iff, Finset.mem_union, h, h']

theorem Holds.diff (h : s.Holds F) (h' : t.Holds G) : Holds (s \ t) (F \ G) := by
  intro q
  rw [Std.ExtTreeSet.mem_diff_iff, Finset.mem_sdiff, h, h']

theorem holds_full (n : Nat) : (full n).Holds (Finset.range n) := by
  intro q
  rw [mem_full, Finset.mem_range]

theorem represents_holds : SetKind.Represents Holds where
  withCapacity _ := holds_empty
  singleton? q _ _ := ⟨{q}, rfl, (holds_empty.add q).2⟩
  full n _ := holds_full n
  ofList? qs _ := ⟨.ofList qs, rfl, fun q => by rw [mem_ofList, List.mem_toFinset]⟩
  insert? {s _} h q _ := ⟨(s.add q).2, congrArg some (h.add q).1, (h.add q).2⟩
  insertAll? {s _} h qs _ := ⟨s.addAll qs, rfl, h.addAll qs⟩
  unionWith h h' := h.union h'
  difference h h' := h.diff h'
  contains h := h.contains
  isEmpty h := h.isEmpty
  size h := h.size
  members h := h.toList
  meets h h' := h.meets h'
  same h h' := decide_eq_decide.mpr (h.eq_iff h')
  fed h := h.toList

end StateSet

namespace SetKind

/-- Sets with rows of several lengths, which grow when states are added and in unions only. -/
def unlikeRows : List Call :=
  [.withCapacity 2, .insert 0 40, .insert 0 40, .singleton 1 2, .singleton 1 64, .same 1 2,
    .hash 1, .hash 2, .full 3, .clone 3, .unionWith 3 0, .members 3, .size 3, .difference 3 4,
    .members 5, .meets 4 5, .ofList [7, 1, 7], .insertAll 6 [0, 5], .meets 0 6, .contains 6 100,
    .difference 1 2, .isEmpty 7, .withCapacity 9, .same 7 8, .members 6]

end SetKind

end RightLinear
