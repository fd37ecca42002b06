import Mathlib.Logic.Relation
import RightLinear.Dfa.Reachable
import RightLinear.Proofs.Provenance

namespace RightLinear

namespace Draft

def withEdge (d : Draft) (e : Edge) : Draft :=
  { d with
    alphabet := d.alphabet.insert e.label
    table := d.table.insert (e.source, e.label) e.target }

theorem Built.withEdge {d : Draft} {e : Edge} (readable : e.label ≠ Symbol.epsilon)
    (h : d.Built) : (d.withEdge e).Built :=
  .addEdge h (addEdge_eq_ok_iff.mpr ⟨readable, rfl⟩)

end Draft

namespace Dfa

open Relation

variable {d : Dfa} {q t : StateId} {queue : List StateId} {visited : StateSet} {s s' : Search}

def Reaches (d : Dfa) (q : StateId) : Prop := ∃ w, d.run d.start w = some q

theorem exists_accepts_iff : (∃ w, d.accepts w = true) ↔ ∃ q, d.Reaches q ∧ q ∈ d.accepting := by
  simp only [accepts_iff, Reaches]
  constructor
  · intro h
    obtain ⟨w, q, hr, final⟩ := h
    exact ⟨q, ⟨w, hr⟩, final⟩
  · intro h
    obtain ⟨q, ⟨w, hr⟩, final⟩ := h
    exact ⟨w, q, hr, final⟩

theorem mem_successors : t ∈ d.successors q ↔ ∃ a ∈ d.alphabet, d.next? q a = some t := by
  simp only [successors, List.mem_filterMap, Std.ExtTreeSet.mem_toList]

theorem Reaches.successor (h : d.Reaches q) (ht : t ∈ d.successors q) : d.Reaches t := by
  obtain ⟨w, hr⟩ := h
  obtain ⟨a, _, move⟩ := mem_successors.mp ht
  refine ⟨w ++ [a], ?_⟩
  rw [run_append, hr, Option.bind_some, run, move]
  rfl

namespace Search

def Met (s : Search) (q : StateId) : Prop := q ∈ s.visited ∨ q ∈ s.queue

theorem Met.skip (h : Met ⟨visited, q :: queue⟩ t) (old : q ∈ visited) :
    Met ⟨visited, queue⟩ t := by
  rcases h with visited | queued
  · exact Or.inl visited
  · rcases List.mem_cons.mp queued with rfl | queued
    · exact Or.inl old
    · exact Or.inr queued

theorem mem_visited_visit : t ∈ (visit d visited q queue).visited ↔ t = q ∨ t ∈ visited := by
  rw [visit, Std.ExtTreeSet.mem_insert, Std.LawfulEqCmp.compare_eq_iff_eq, eq_comm]

theorem mem_queue_visit : t ∈ (visit d visited q queue).queue ↔
    t ∈ queue ∨ t ∈ d.successors q ∧ t ∉ (visit d visited q queue).visited := by
  simp only [visit, List.mem_append, List.mem_filter, Bool.not_eq_true', ← Bool.not_eq_true,
    Std.ExtTreeSet.contains_iff_mem]

theorem Met.visit (h : Met ⟨visited, q :: queue⟩ t) : Met (visit d visited q queue) t := by
  rw [Met, mem_visited_visit, mem_queue_visit]
  rcases h with visited | queued
  · exact Or.inl (Or.inr visited)
  · rcases List.mem_cons.mp queued with front | queued
    · exact Or.inl (Or.inl front)
    · exact Or.inr (Or.inl queued)

theorem met_visit_of_successor (h : t ∈ d.successors q) : Met (visit d visited q queue) t := by
  by_cases old : t ∈ (Search.visit d visited q queue).visited
  · exact Or.inl old
  · exact Or.inr (mem_queue_visit.mpr (Or.inr ⟨h, old⟩))

/-- A search from the start under way.  It has not visited an accepting state, and no move leads
from a visited state to one that it has not met. -/
structure UnderWay (d : Dfa) (s : Search) : Prop where
  met_start : s.Met d.start
  reached : ∀ q ∈ s.queue, d.Reaches q
  rejects : ∀ q ∈ s.visited, q ∉ d.accepting
  expanded : ∀ q ∈ s.visited, ∀ t ∈ d.successors q, s.Met t

theorem UnderWay.start (d : Dfa) : UnderWay d ⟨∅, [d.start]⟩ where
  met_start := Or.inr List.mem_cons_self
  reached q hq := by
    obtain rfl := List.mem_singleton.mp hq
    exact ⟨[], rfl⟩
  rejects _ hq := absurd hq Std.ExtTreeSet.not_mem_empty
  expanded _ hq := absurd hq Std.ExtTreeSet.not_mem_empty

theorem UnderWay.skip (h : UnderWay d ⟨visited, q :: queue⟩) (old : q ∈ visited) :
    UnderWay d ⟨visited, queue⟩ where
  met_start := h.met_start.skip old
  reached t ht := h.reached t (List.mem_cons_of_mem q ht)
  rejects := h.rejects
  expanded p hp t ht := (h.expanded p hp t ht).skip old

theorem UnderWay.visit (h : UnderWay d ⟨visited, q :: queue⟩) (rejected : q ∉ d.accepting) :
    UnderWay d (visit d visited q queue) where
  met_start := h.met_start.visit
  reached t ht := by
    rcases mem_queue_visit.mp ht with queued | ⟨successor, _⟩
    · exact h.reached t (List.mem_cons_of_mem q queued)
    · exact (h.reached q List.mem_cons_self).successor successor
  rejects p hp := by
    rcases mem_visited_visit.mp hp with rfl | old
    · exact rejected
    · exact h.rejects p old
  expanded p hp t ht := by
    rcases mem_visited_visit.mp hp with rfl | old
    · exact met_visit_of_successor ht
    · exact (h.expanded p old t ht).visit

theorem UnderWay.turn (h : UnderWay d s) (turned : d.turn s = .inl s') : UnderWay d s' := by
  obtain ⟨visited, q, queue, rfl, ⟨old, rfl⟩ | ⟨_, rejected, rfl⟩⟩ := of_turn_eq_inl turned
  · exact h.skip old
  · exact h.visit rejected

end Search

def Turns (d : Dfa) : Search → Search → Prop := ReflTransGen fun s s' => d.turn s = .inl s'

theorem Search.UnderWay.turns (h : UnderWay d s) (turned : d.Turns s s') : UnderWay d s' := by
  induction turned with
  | refl => exact h
  | tail _ last ih => exact ih.turn last

/-- A search that has come to an end with an empty queue has visited every state that words lead
to, for each of them is the start or follows on one by a symbol of the alphabet. -/
theorem Search.UnderWay.mem_visited (h : UnderWay d s) (formed : d.WellFormed) (done : s.queue = [])
    (reached : d.Reaches q) : q ∈ s.visited := by
  have met {t : StateId} (ht : s.Met t) : t ∈ s.visited := by
    rcases ht with visited | queued
    · exact visited
    · rw [done] at queued
      exact absurd queued List.not_mem_nil
  obtain ⟨w, hr⟩ := reached
  induction w using List.reverseRecOn generalizing q with
  | nil =>
    obtain rfl := Option.some.inj hr
    exact met h.met_start
  | append_singleton w a ih =>
    rw [run_append] at hr
    obtain ⟨p, before, last⟩ := Option.bind_eq_some_iff.mp hr
    have move : d.next? p a = some q := by simpa [run] using last
    have known : a ∈ d.alphabet := formed.label_mem p a q move
    exact met (h.expanded p (ih before) q (mem_successors.mpr ⟨a, known, move⟩))

theorem exists_turns_answer (d : Dfa) (s : Search) :
    ∃ s', d.Turns s s' ∧ d.turn s' = .inr (d.answer s) := by
  fun_induction answer d s with
  | case1 s t turned ih =>
    obtain ⟨s', rest, last⟩ := ih
    exact ⟨s', .head turned rest, last⟩
  | case2 s answer turned => exact ⟨s, .refl, turned⟩

theorem isEmpty_eq_answer (d : Dfa) : d.isEmpty = d.answer ⟨∅, [d.start]⟩ := by
  by_cases none : d.accepting.isEmpty = true
  · obtain ⟨s, _, last⟩ := d.exists_turns_answer ⟨∅, [d.start]⟩
    rcases of_turn_eq_inr last with ⟨_, answer⟩ | ⟨q, _, final, _⟩
    · rw [isEmpty, none, answer, Bool.true_or]
    · rw [Std.ExtTreeSet.isEmpty_iff.mp none] at final
      exact absurd final Std.ExtTreeSet.not_mem_empty
  · rw [isEmpty, Bool.eq_false_iff.mpr none, Bool.false_or]

theorem WellFormed.isEmpty_iff (h : d.WellFormed) :
    d.isEmpty = true ↔ ¬∃ w, d.accepts w = true := by
  obtain ⟨s, turned, last⟩ := d.exists_turns_answer ⟨∅, [d.start]⟩
  have underWay : Search.UnderWay d s := (Search.UnderWay.start d).turns turned
  rw [isEmpty_eq_answer, exists_accepts_iff]
  rcases of_turn_eq_inr last with ⟨done, answer⟩ | ⟨q, queued, final, answer⟩
  · have rejects : ¬∃ q, d.Reaches q ∧ q ∈ d.accepting := by
      intro found
      obtain ⟨q, reached, final⟩ := found
      exact underWay.rejects q (underWay.mem_visited h done reached) final
    exact iff_of_true answer rejects
  · have found : ∃ q, d.Reaches q ∧ q ∈ d.accepting := ⟨q, underWay.reached q queued, final⟩
    rw [answer]
    exact iff_of_false Bool.false_ne_true (not_not_intro found)

/-- The search ends with the answer, and the answer is right of every word, be it spelled in the
alphabet or not. -/
theorem search_decides_emptiness (d : Dfa) (h : d.Built) :
    (∃ s, d.Turns ⟨∅, [d.start]⟩ s ∧ d.turn s = .inr d.isEmpty) ∧
    (d.isEmpty = true ↔ ¬∃ w, d.accepts w = true) := by
  refine ⟨?_, h.wellFormed.isEmpty_iff⟩
  rw [isEmpty_eq_answer]
  exact d.exists_turns_answer _

/-- Two states that lead to each other, and one to itself, beside an accepting state that nothing
leads to. -/
def unreachedFinal : Draft :=
  ((((Draft.ofAlphabet ∅).withEdge ⟨0, 'a', 0⟩).withEdge ⟨0, 'b', 1⟩).withEdge
    ⟨1, 'b', 0⟩).addAccepting 2

theorem built_unreachedFinal : unreachedFinal.Built :=
  .addAccepting 2 <| .withEdge (by decide) <| .withEdge (by decide) <| .withEdge (by decide) <|
    .ofAlphabet ∅

theorem search_decides_emptiness_unreachedFinal : unreachedFinal.finish.Built ∧
    unreachedFinal.finish.noneAccepting = false ∧
    (∃ s, unreachedFinal.finish.Turns ⟨∅, [unreachedFinal.finish.start]⟩ s ∧
      unreachedFinal.finish.turn s = .inr unreachedFinal.finish.isEmpty) ∧
    (unreachedFinal.finish.isEmpty = true ↔ ¬∃ w, unreachedFinal.finish.accepts w = true) ∧
    unreachedFinal.finish.isEmpty = true := by
  have built : unreachedFinal.finish.Built := .finish built_unreachedFinal
  have ⟨ends, decides⟩ := search_decides_emptiness unreachedFinal.finish built
  exact ⟨built, by decide +kernel, ends, decides, by decide +kernel⟩

end Dfa

end RightLinear
