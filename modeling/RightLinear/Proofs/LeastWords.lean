import Mathlib.Data.Char
import Mathlib.Data.List.Shortlex
import RightLinear.Proofs.Discovery
import RightLinear.Symbol

namespace RightLinear

/-- The first word is shorter, or it has the same length and the lower symbol at the first place
where the two differ. -/
def Precedes : Word → Word → Prop := List.Shortlex (· < ·)

namespace Precedes

variable {u v w : Word} {a b : Symbol}

theorem iff_length_or_lex : Precedes u v ↔
    u.length < v.length ∨ u.length = v.length ∧ List.Lex (· < ·) u v :=
  List.shortlex_def

theorem asymm (h : Precedes u v) : ¬Precedes v u :=
  Std.Asymm.asymm (r := List.Shortlex (· < ·)) u v h

theorem irrefl (w : Word) : ¬Precedes w w := fun h => h.asymm h

theorem trans (h : Precedes u v) (h' : Precedes v w) : Precedes u w := by
  rw [iff_length_or_lex] at h h' ⊢
  rcases h with shorter | ⟨same, lex⟩
  · rcases h' with shorter' | ⟨same', _⟩
    · exact Or.inl (shorter.trans shorter')
    · exact Or.inl (same' ▸ shorter)
  · rcases h' with shorter' | ⟨same', lex'⟩
    · exact Or.inl (same ▸ shorter')
    · exact Or.inr ⟨same.trans same', List.lex_trans lt_trans lex lex'⟩

theorem trichotomy (u v : Word) : Precedes u v ∨ u = v ∨ Precedes v u := by
  by_contra h
  obtain ⟨h, neither⟩ := not_or.mp h
  obtain ⟨ne, h'⟩ := not_or.mp neither
  exact ne (Std.Trichotomous.trichotomous (r := List.Shortlex (· < ·)) u v h h')

theorem not_nil (w : Word) : ¬Precedes w [] := List.not_shortlex_nil_right

theorem wellFounded : WellFounded Precedes := by
  have symbols : WellFounded fun a b : Symbol => a < b :=
    Subrelation.wf (fun h => h) (InvImage.wf Char.toNat Nat.lt_wfRel.wf)
  exact List.Shortlex.wf symbols

theorem concat_iff : Precedes (u ++ [a]) (v ++ [b]) ↔ Precedes u v ∨ u = v ∧ a < b := by
  have lex (same : u.length = v.length) :
      List.Lex (· < ·) (u ++ [a]) (v ++ [b]) ↔ List.Lex (· < ·) u v ∨ u = v ∧ a < b := by
    induction u generalizing v with
    | nil =>
      obtain rfl := List.eq_nil_of_length_eq_zero same.symm
      simp
    | cons c u ih =>
      cases v with
      | nil => simp at same
      | cons d v =>
        rw [List.cons_append, List.cons_append, List.cons_lex_cons_iff, List.cons_lex_cons_iff,
          ih (Nat.succ.inj same), List.cons.injEq]
        tauto
  rw [iff_length_or_lex, iff_length_or_lex, List.length_append, List.length_append,
    List.length_singleton, List.length_singleton]
  by_cases same : u.length = v.length
  · simp [same, lex same]
  · have ne : u ≠ v := fun eq => same (congrArg List.length eq)
    simp [same, ne]

end Precedes

section LeastWords

variable {σ τ : Type} {alphabet alphabet' : SymbolSet} {run : Word → Option σ}
  {run' : Word → Option τ} {u v w : Word} {s : σ} {t : τ}

structure LeadsTo (alphabet : SymbolSet) (run : Word → Option σ) (w : Word) (s : σ) : Prop where
  spelled : ∀ a ∈ w, a ∈ alphabet
  run_eq : run w = some s

/-- Every other word over the alphabet that ends in the state comes later. -/
structure IsLeastWord (alphabet : SymbolSet) (run : Word → Option σ) (w : Word) (s : σ) : Prop
    extends LeadsTo alphabet run w s where
  least : ∀ v, LeadsTo alphabet run v s → w = v ∨ Precedes w v

theorem IsLeastWord.unique (h : IsLeastWord alphabet run u s) (h' : IsLeastWord alphabet run v s) :
    u = v := by
  rcases h.least v h'.toLeadsTo with eq | before
  · exact eq
  · rcases h'.least u h.toLeadsTo with eq | after
    · exact eq.symm
    · exact absurd after before.asymm

theorem LeadsTo.exists_isLeastWord (h : LeadsTo alphabet run w s) :
    ∃ u, IsLeastWord alphabet run u s := by
  obtain ⟨u, hu, first⟩ := Precedes.wellFounded.has_min {v | LeadsTo alphabet run v s} ⟨w, h⟩
  refine ⟨u, hu, ?_⟩
  intro v hv
  rcases Precedes.trichotomy u v with before | eq | after
  · exact Or.inr before
  · exact Or.inl eq
  · exact absurd after (first v hv)

theorem isLeastWord_congr (same : ∀ w, LeadsTo alphabet run w s ↔ LeadsTo alphabet' run' w t) :
    IsLeastWord alphabet run w s ↔ IsLeastWord alphabet' run' w t := by
  constructor
  · intro h
    exact ⟨(same w).mp h.toLeadsTo, fun v hv => h.least v ((same v).mpr hv)⟩
  · intro h
    exact ⟨(same w).mpr h.toLeadsTo, fun v hv => h.least v ((same v).mp hv)⟩

def Before (alphabet : SymbolSet) (run : Word → Option σ) (s t : σ) : Prop :=
  ∀ u v, IsLeastWord alphabet run u s → IsLeastWord alphabet run v t → Precedes u v

end LeastWords

section Systems

variable {σ : Type} {alphabet : SymbolSet} {next : σ → Symbol → Option σ} {init s t x : σ}
  {u v w : Word} {a : Symbol}

def runFrom (next : σ → Symbol → Option σ) (init : σ) (w : Word) : Option σ := w.foldlM next init

/-- Where the symbols lead from a state, in ascending order. -/
def stepsFrom (alphabet : SymbolSet) (next : σ → Symbol → Option σ) (s : σ) : List σ :=
  alphabet.toList.filterMap (next s)

theorem mem_stepsFrom : t ∈ stepsFrom alphabet next s ↔ ∃ a ∈ alphabet, next s a = some t := by
  rw [stepsFrom, List.mem_filterMap]
  simp only [Std.ExtTreeSet.mem_toList]

theorem leadsTo_nil_iff : LeadsTo alphabet (runFrom next init) [] s ↔ s = init := by
  constructor
  · intro h
    exact (Option.some.inj h.run_eq).symm
  · intro eq
    exact ⟨by simp, eq ▸ rfl⟩

theorem leadsTo_concat_iff : LeadsTo alphabet (runFrom next init) (w ++ [a]) t ↔
    ∃ s, LeadsTo alphabet (runFrom next init) w s ∧ a ∈ alphabet ∧ next s a = some t := by
  have run : runFrom next init (w ++ [a]) = (runFrom next init w).bind fun s => next s a := by
    rw [runFrom, List.foldlM_append]
    simp [runFrom, List.foldlM]
  constructor
  · intro h
    obtain ⟨s, before, last⟩ := Option.bind_eq_some_iff.mp (run.symm.trans h.run_eq)
    exact ⟨s, ⟨fun b hb => h.spelled b (List.mem_append_left _ hb), before⟩,
      h.spelled a (by simp), last⟩
  · intro h
    obtain ⟨s, before, ha, last⟩ := h
    refine ⟨?_, run.trans (Option.bind_eq_some_iff.mpr ⟨s, before.run_eq, last⟩)⟩
    intro b hb
    rcases List.mem_append.mp hb with hb | hb
    · exact before.spelled b hb
    · exact List.mem_singleton.mp hb ▸ ha

/-- The front part of a least word is least too, as any lesser one could take its place. -/
theorem IsLeastWord.of_concat (h : IsLeastWord alphabet (runFrom next init) (w ++ [a]) t) :
    ∃ s, IsLeastWord alphabet (runFrom next init) w s ∧ a ∈ alphabet ∧ next s a = some t := by
  obtain ⟨s, before, ha, last⟩ := leadsTo_concat_iff.mp h.toLeadsTo
  refine ⟨s, ⟨before, ?_⟩, ha, last⟩
  intro v hv
  rcases h.least (v ++ [a]) (leadsTo_concat_iff.mpr ⟨s, hv, ha, last⟩) with eq | earlier
  · exact Or.inl (List.append_cancel_right eq)
  · rcases Precedes.concat_iff.mp earlier with earlier | ⟨_, less⟩
    · exact Or.inr earlier
    · exact absurd less (lt_irrefl a)

/-- The least word of a state comes no later than a word with one more symbol that leads there. -/
theorem IsLeastWord.precedes_of_step (hv : IsLeastWord alphabet (runFrom next init) v t)
    (hu : LeadsTo alphabet (runFrom next init) u s) (ha : a ∈ alphabet)
    (move : next s a = some t) (later : Precedes (u ++ [a]) w) : Precedes v w := by
  rcases hv.least (u ++ [a]) (leadsTo_concat_iff.mpr ⟨s, hu, ha, move⟩) with eq | before
  · exact eq ▸ later
  · exact before.trans later

/-- A discovery under way that has listed states in the order of their least words.  All states
that it has not listed come later. -/
structure Ascending (alphabet : SymbolSet) (next : σ → Symbol → Option σ) (init : σ)
    (done queue : List σ) : Prop where
  sorted : (done ++ queue).Pairwise (Before alphabet (runFrom next init))
  reached : ∀ s ∈ done ++ queue, ∃ w, LeadsTo alphabet (runFrom next init) w s
  unlisted : ∀ s ∈ done ++ queue, ∀ t, t ∉ done ++ queue →
    Before alphabet (runFrom next init) s t
  expanded : ∀ s ∈ done, ∀ t ∈ stepsFrom alphabet next s, t ∈ done ++ queue

namespace Ascending

variable {done queue : List σ}

theorem start : Ascending alphabet next init [] [init] where
  sorted := by simp
  reached s hs := ⟨[], leadsTo_nil_iff.mpr (by simpa using hs)⟩
  unlisted s hs t ht u v hu hv := by
    obtain rfl : s = init := by simpa using hs
    rcases hu.least [] (leadsTo_nil_iff.mpr rfl) with rfl | before
    · rcases List.shortlex_nil_or_eq_nil v with before | rfl
      · exact before
      · exact absurd (by simpa using leadsTo_nil_iff.mp hv.toLeadsTo) ht
    · exact absurd before (Precedes.not_nil u)
  expanded s hs := absurd hs List.not_mem_nil

/-- The least word of a state that is not listed extends the least word of the front of the queue,
or else a later word. -/
theorem origin (h : Ascending alphabet next init done (x :: queue))
    (hu : IsLeastWord alphabet (runFrom next init) u x) (ht : t ∉ done ++ x :: queue)
    (hv : IsLeastWord alphabet (runFrom next init) v t) :
    ∃ w a, v = w ++ [a] ∧ (u = w ∧ a ∈ alphabet ∧ next x a = some t ∨ Precedes u w) := by
  have after : Precedes u v := h.unlisted x (by simp) t ht u v hu hv
  rcases List.eq_nil_or_concat v with rfl | ⟨w, a, rfl⟩
  · exact absurd after (Precedes.not_nil u)
  · rw [List.concat_eq_append] at hv ⊢
    refine ⟨w, a, rfl, ?_⟩
    obtain ⟨p, hp, ha, last⟩ := hv.of_concat
    by_cases listed : p ∈ done ++ x :: queue
    · have sorted := h.sorted
      rw [List.pairwise_append, List.pairwise_cons] at sorted
      rcases List.mem_append.mp listed with before | here
      · exact absurd (h.expanded p before t (mem_stepsFrom.mpr ⟨a, ha, last⟩)) ht
      · rcases List.mem_cons.mp here with rfl | behind
        · exact Or.inl ⟨hu.unique hp, ha, last⟩
        · exact Or.inr (sorted.2.1.1 p behind u w hu hp)
    · exact Or.inr (h.unlisted x (by simp) p listed u w hu hp)

theorem step_before_unlisted (h : Ascending alphabet next init done (x :: queue))
    (hu : IsLeastWord alphabet (runFrom next init) u x) (hs : s ∈ stepsFrom alphabet next x)
    (ht : t ∉ done ++ x :: queue) (unmet : t ∉ stepsFrom alphabet next x) :
    Before alphabet (runFrom next init) s t := by
  intro v v' hv hv'
  obtain ⟨a, ha, move⟩ := mem_stepsFrom.mp hs
  obtain ⟨w, b, rfl, origin⟩ := h.origin hu ht hv'
  apply hv.precedes_of_step hu.toLeadsTo ha move
  rcases origin with ⟨_, hb, move'⟩ | later
  · exact absurd (mem_stepsFrom.mpr ⟨b, hb, move'⟩) unmet
  · exact Precedes.concat_iff.mpr (Or.inl later)

end Ascending

variable [DecidableEq σ]

theorem pairwise_fresh_filterMap {r : Symbol → Symbol → Prop} {f : Symbol → Option σ}
    {as : List Symbol} (ascending : as.Pairwise r) (seen : List σ) :
    (fresh seen (as.filterMap f)).Pairwise
      fun s t => ∃ a ∈ as, f a = some s ∧ ∀ b ∈ as, f b = some t → r a b := by
  induction as generalizing seen with
  | nil => exact List.Pairwise.nil
  | cons c as ih =>
    obtain ⟨first, ascending⟩ := List.pairwise_cons.mp ascending
    -- Elements that `c` does not lead to keep their symbols among the later ones.
    have later (seen : List σ) (known : ∀ y, f c = some y → y ∈ seen) :
        (fresh seen (as.filterMap f)).Pairwise
          fun s t => ∃ a ∈ c :: as, f a = some s ∧ ∀ b ∈ c :: as, f b = some t → r a b := by
      apply List.Pairwise.imp_of_mem _ (ih ascending seen)
      intro s t _ ht h
      obtain ⟨a, ha, found, least⟩ := h
      refine ⟨a, List.mem_cons_of_mem c ha, found, List.forall_mem_cons.mpr ⟨?_, least⟩⟩
      intro hit
      exact absurd (known t hit) ((mem_fresh _ _ _).mp ht).2
    cases hit : f c with
    | none =>
      rw [List.filterMap_cons_none hit]
      exact later seen (by simp [hit])
    | some y =>
      rw [List.filterMap_cons_some hit]
      by_cases hy : y ∈ seen
      · simpa only [fresh, hy, if_true] using later seen (by simp [hit, hy])
      · simp only [fresh, hy, if_false]
        refine List.pairwise_cons.mpr ⟨?_, later (y :: seen) (by simp [hit])⟩
        intro t ht
        obtain ⟨_, unseen⟩ := (mem_fresh _ _ _).mp ht
        refine ⟨c, List.mem_cons_self, hit, List.forall_mem_cons.mpr ⟨?_, fun b hb _ => first b hb⟩⟩
        intro again
        obtain rfl := Option.some.inj (hit.symm.trans again)
        exact absurd List.mem_cons_self unseen

namespace Ascending

variable {done queue : List σ}

theorem fresh_sorted (h : Ascending alphabet next init done (x :: queue))
    (hu : IsLeastWord alphabet (runFrom next init) u x) :
    (fresh (done ++ x :: queue) (stepsFrom alphabet next x)).Pairwise
      (Before alphabet (runFrom next init)) := by
  have ascending : alphabet.toList.Pairwise (· < ·) :=
    alphabet.ordered_toList.imp compare_lt_iff_lt.mp
  apply List.Pairwise.imp_of_mem _ (pairwise_fresh_filterMap ascending _)
  intro s t _ ht symbols v v' hv hv'
  obtain ⟨a, ha, move, least⟩ := symbols
  obtain ⟨w, b, rfl, origin⟩ := h.origin hu ((mem_fresh _ _ _).mp ht).2 hv'
  apply hv.precedes_of_step hu.toLeadsTo (Std.ExtTreeSet.mem_toList.mp ha) move
  rw [Precedes.concat_iff]
  rcases origin with ⟨eq, hb, move'⟩ | later
  · exact Or.inr ⟨eq, least b (Std.ExtTreeSet.mem_toList.mpr hb) move'⟩
  · exact Or.inl later

theorem expand (h : Ascending alphabet next init done (x :: queue)) :
    Ascending alphabet next init (done ++ [x])
      (queue ++ fresh (done ++ x :: queue) (stepsFrom alphabet next x)) := by
  obtain ⟨w, hw⟩ := h.reached x (by simp)
  obtain ⟨u, hu⟩ := hw.exists_isLeastWord
  refine ⟨?_, ?_, ?_, ?_⟩
  · rw [← List.append_assoc, List.append_assoc done, List.singleton_append]
    refine List.pairwise_append.mpr ⟨h.sorted, h.fresh_sorted hu, ?_⟩
    intro s hs t ht
    exact h.unlisted s hs t ((mem_fresh _ _ _).mp ht).2
  · intro s hs
    rcases mem_expand.mp hs with old | new
    · exact h.reached s old
    · obtain ⟨a, ha, move⟩ := mem_stepsFrom.mp new
      exact ⟨u ++ [a], leadsTo_concat_iff.mpr ⟨x, hu.toLeadsTo, ha, move⟩⟩
  · intro s hs t ht
    obtain ⟨unlisted, unmet⟩ := not_or.mp (mt mem_expand.mpr ht)
    rcases mem_expand.mp hs with old | new
    · exact h.unlisted s old t unlisted
    · exact h.step_before_unlisted hu new unlisted unmet
  · intro s hs t ht
    apply mem_expand.mpr
    rcases List.mem_append.mp hs with hs | hs
    · exact Or.inl (h.expanded s hs t ht)
    · exact Or.inr (List.mem_singleton.mp hs ▸ ht)

theorem sorted_explore (h : Ascending alphabet next init done queue) (fuel : Nat) :
    (explore (stepsFrom alphabet next) fuel done queue).Pairwise
        (Before alphabet (runFrom next init)) ∧
      ∀ s ∈ explore (stepsFrom alphabet next) fuel done queue,
        ∃ w, LeadsTo alphabet (runFrom next init) w s := by
  -- By induction on the fuel, whether or not it is enough to expand everything.
  induction fuel generalizing done queue with
  | zero => exact ⟨h.sorted, h.reached⟩
  | succ fuel ih =>
    cases queue with
    | nil => simpa [explore] using And.intro h.sorted h.reached
    | cons x queue => exact ih h.expand

end Ascending

end Systems

end RightLinear
