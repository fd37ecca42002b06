import Mathlib.Data.List.Sublists
import RightLinear.Nfa.Determinize
import RightLinear.Proofs.LiveSets
import RightLinear.Proofs.NumberedStates

namespace RightLinear.Nfa

variable {n : Nfa}

theorem Path.eq_or_mem_targets {p q : StateId} {w : Word} (path : n.Path p w q) :
    q = p ∨ q ∈ n.targets := by
  induction path with
  | nil q => exact Or.inl rfl
  | silent he _ ih =>
    rcases ih with eq | hq
    · exact Or.inr (eq ▸ mem_targets_of_edge he)
    · exact Or.inr hq
  | read _ he _ ih =>
    rcases ih with eq | hq
    · exact Or.inr (eq ▸ mem_targets_of_edge he)
    · exact Or.inr hq

theorem WellFormed.mem_alphabet_of_path (h : n.WellFormed) {p q : StateId} {w : Word}
    (path : n.Path p w q) : ∀ a ∈ w, a ∈ n.alphabet := by
  induction path with
  | nil => simp
  | silent _ _ ih => exact ih
  | read ha he _ ih =>
    intro b hb
    rcases List.mem_cons.mp hb with eq | hb
    · rw [eq]
      exact h.label_mem _ he ha
    · exact ih b hb

theorem follow?_eq_none_iff {s : StateSet} {a : Symbol} :
    n.follow? s a = none ↔ n.image s a = ∅ := by
  rw [← Std.ExtTreeSet.isEmpty_iff, follow?]
  split <;> simp_all

theorem eq_of_follow?_eq_some {s t : StateSet} {a : Symbol} (h : n.follow? s a = some t) :
    t = n.closure (n.image s a) := by
  rw [follow?] at h
  split at h
  · simp at h
  · exact (Option.some.inj h).symm

/-- The sets that discovery can meet: the initial one, and those made of targets of moves. -/
def subsetSpace (n : Nfa) : List StateSet :=
  n.initial :: n.targets.sublists.map fun qs => .ofList qs

theorem mem_subsetSpace {s : StateSet} (h : ∀ q ∈ s, q ∈ n.targets) : s ∈ n.subsetSpace := by
  have chosen : s = .ofList (n.targets.filter fun q => s.contains q) := by
    apply Std.ExtTreeSet.ext_mem
    intro q
    rw [Std.ExtTreeSet.mem_ofList, List.contains_iff_mem, List.mem_filter,
      Std.ExtTreeSet.contains_iff_mem]
    exact ⟨fun hq => ⟨h q hq, hq⟩, fun hq => hq.2⟩
  apply List.mem_cons_of_mem
  rw [chosen]
  exact List.mem_map.mpr ⟨_, List.mem_sublists.mpr List.filter_sublist, rfl⟩

theorem length_subsetSpace (n : Nfa) :
    n.subsetSpace.length ≤ Nat.pow 2 (n.edges.size + 1) := by
  have positive : 0 < 2 ^ n.edges.size := Nat.two_pow_pos _
  have double : Nat.pow 2 (n.edges.size + 1) = 2 ^ n.edges.size * 2 :=
    Nat.pow_succ ..
  rw [subsetSpace, List.length_cons, List.length_map, List.length_sublists, length_targets, double]
  omega

theorem mem_followers_iff {s t : StateSet} :
    t ∈ n.followers s ↔ ∃ a ∈ n.alphabet, n.follow? s a = some t := by
  rw [followers, List.mem_filterMap]
  simp only [Std.ExtTreeSet.mem_toList]

theorem followers_subset_space {s t : StateSet} (h : t ∈ n.followers s) : t ∈ n.subsetSpace := by
  obtain ⟨a, _, found⟩ := mem_followers_iff.mp h
  apply mem_subsetSpace
  intro q hq
  rw [eq_of_follow?_eq_some found] at hq
  obtain ⟨p, hp, silent⟩ := mem_closure_iff.mp hq
  obtain ⟨r, _, move⟩ := (n.mem_image _ _ _).mp hp
  rcases silent.eq_or_mem_targets with eq | target
  · exact eq ▸ mem_targets_of_edge move
  · exact target

theorem nodup_subsets (n : Nfa) : n.subsets.Nodup :=
  nodup_explore _ _ _ _ (by simp)

theorem subsets_closed {s t : StateSet} (hs : s ∈ n.subsets) (ht : t ∈ n.followers s) :
    t ∈ n.subsets := by
  have closed : ∀ s ∈ n.subsetSpace, ∀ t ∈ n.followers s, t ∈ n.subsetSpace :=
    fun _ _ _ ht => followers_subset_space ht
  have within : ∀ s ∈ [n.initial], s ∈ n.subsetSpace := by simp [subsetSpace]
  exact explore_closed closed (by simp) within n.length_subsetSpace s hs t ht

theorem holdsSteps_subsets (n : Nfa) :
    Dfa.HoldsSteps n.alphabet n.subsets n.follow? n.initial where
  head?_eq := head?_explore _ _
  nodup := n.nodup_subsets
  closed _ hs a ha _ found := subsets_closed hs (mem_followers_iff.mpr ⟨a, ha, found⟩)

theorem mem_subsetStates_iff {s : Option StateSet} :
    s ∈ n.subsetStates ↔ (∃ t ∈ n.subsets, some t = s) ∨ (n.dies = true ∧ s = none) :=
  Dfa.mem_withDead_iff

theorem enumerates_subsetStates (n : Nfa) :
    Dfa.Enumerates n.alphabet n.subsetStates n.subsetNext (some n.initial) :=
  n.holdsSteps_subsets.enumerates

theorem dead_lt_length {q : StateId}
    (h : (if n.dies then some n.subsets.length else none) = some q) : q < n.subsetStates.length :=
  Dfa.dead_lt_length_withDead h

theorem WellFormed.determinize (h : n.WellFormed) : n.determinize.WellFormed :=
  n.enumerates_subsetStates.wellFormed (fun _ => dead_lt_length) h.epsilon_not_mem

theorem foldl_subsetNext_none (n : Nfa) (w : Word) : w.foldl n.subsetNext none = none := by
  induction w with
  | nil => rfl
  | cons a w ih => exact ih

theorem getD_foldl_subsetNext (s : StateSet) (w : Word) :
    (w.foldl n.subsetNext (some s)).getD ∅ = n.liveAfter s w := by
  induction w generalizing s with
  | nil => rfl
  | cons a w ih =>
    have first : n.subsetNext (some s) a = n.follow? s a := rfl
    rw [List.foldl_cons, first, liveAfter_cons]
    cases found : n.follow? s a with
    | none =>
      have stuck : n.image s a = ∅ := follow?_eq_none_iff.mp found
      rw [foldl_subsetNext_none, stuck, closure_empty, liveAfter_empty, Option.getD_none]
    | some t => rw [ih, eq_of_follow?_eq_some found]

theorem subsetAccepts_eq (n : Nfa) (s : Option StateSet) :
    n.subsetAccepts s = (s.getD ∅).meets n.accepting := by
  cases s with
  | none => exact (StateSet.empty_meets _).symm
  | some t => rfl

/-- Paths never read the silent label, so the words that it occurs in are left out on both
sides. -/
theorem WellFormed.accepts_determinize_iff (h : n.WellFormed) {w : Word} :
    n.determinize.accepts w = true ↔ n.Recognizes w := by
  have judge : n.determinize.accepts w = true ↔ (∀ a ∈ w, a ∈ n.alphabet) ∧
      n.subsetAccepts (w.foldl n.subsetNext (some n.initial)) = true :=
    n.enumerates_subsetStates.accepts_iff (fun _ => dead_lt_length) h.epsilon_not_mem
  have live (hw : Symbol.epsilon ∉ w) :
      n.subsetAccepts (w.foldl n.subsetNext (some n.initial)) = true ↔ n.Recognizes w := by
    rw [subsetAccepts_eq, getD_foldl_subsetNext, ← accepts_iff_recognizes hw, accepts_eq hw,
      Except.ok.injEq]
  rw [judge]
  constructor
  · intro ha
    obtain ⟨hw, accept⟩ := ha
    exact (live fun he => h.epsilon_not_mem (hw _ he)).mp accept
  · intro hr
    have ⟨p, q, _, path, _⟩ := hr
    have hw : ∀ a ∈ w, a ∈ n.alphabet := h.mem_alphabet_of_path path
    exact ⟨hw, (live fun he => h.epsilon_not_mem (hw _ he)).mpr hr⟩

end RightLinear.Nfa
