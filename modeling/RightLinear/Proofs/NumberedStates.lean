import Mathlib.Data.List.Nodup
import RightLinear.Proofs.DfaRuns

namespace RightLinear.Dfa

variable {σ : Type}

/-- What a list of states has to meet before its places are taken for states. -/
structure Enumerates (alphabet : SymbolSet) (states : List σ) (next : σ → Symbol → σ)
    (init : σ) : Prop where
  head?_eq : states.head? = some init
  nodup : states.Nodup
  closed : ∀ s ∈ states, ∀ a ∈ alphabet, next s a ∈ states

variable {alphabet : SymbolSet} {states : List σ} {next : σ → Symbol → σ} {init : σ}

theorem Enumerates.init_mem (h : Enumerates alphabet states next init) : init ∈ states :=
  List.mem_of_head? h.head?_eq

theorem Enumerates.foldl_mem (h : Enumerates alphabet states next init) {s : σ} (hs : s ∈ states)
    {w : Word} (hw : ∀ a ∈ w, a ∈ alphabet) : w.foldl next s ∈ states := by
  induction w generalizing s with
  | nil => exact hs
  | cons a w ih =>
    have ha : a ∈ alphabet := hw a List.mem_cons_self
    exact ih (h.closed s hs a ha) (fun b hb => hw b (List.mem_cons_of_mem a hb))

section Dead

variable {step : σ → Symbol → Option σ} {s : σ} {x : Option σ} {a : Symbol} {i q : StateId}

/-- A list of states that no step leaves. -/
structure HoldsSteps (alphabet : SymbolSet) (states : List σ) (step : σ → Symbol → Option σ)
    (init : σ) : Prop where
  head?_eq : states.head? = some init
  nodup : states.Nodup
  closed : ∀ s ∈ states, ∀ a ∈ alphabet, ∀ t, step s a = some t → t ∈ states

/-- Some state has no step on some symbol, so that a dead state has to come after them. -/
def lacks (alphabet : SymbolSet) (states : List σ) (step : σ → Symbol → Option σ) : Bool :=
  states.any fun s => alphabet.toList.any fun a => (step s a).isNone

/-- The states of a list, and after them `none` for the dead state if something leads to it. -/
def withDead (alphabet : SymbolSet) (states : List σ) (step : σ → Symbol → Option σ) :
    List (Option σ) :=
  if lacks alphabet states step then states.map some ++ [none] else states.map some

theorem lacks_of_step_eq_none (hs : s ∈ states) (ha : a ∈ alphabet) (missing : step s a = none) :
    lacks alphabet states step = true := by
  simp only [lacks, List.any_eq_true, Std.ExtTreeSet.mem_toList]
  exact ⟨s, hs, a, ha, by rw [missing, Option.isNone_none]⟩

theorem mem_withDead_iff : x ∈ withDead alphabet states step ↔
    (∃ s ∈ states, some s = x) ∨ (lacks alphabet states step = true ∧ x = none) := by
  rw [withDead]
  split <;> simp_all

theorem length_withDead : (withDead alphabet states step).length =
    states.length + if lacks alphabet states step then 1 else 0 := by
  rw [withDead]
  split <;> simp

theorem getElem?_withDead (hi : states[i]? = some s) :
    (withDead alphabet states step)[i]? = some (some s) := by
  have live : (states.map some)[i]? = some (some s) := by
    rw [List.getElem?_map, hi]
    rfl
  rw [withDead]
  split
  · exact (List.getElem?_append_left (List.getElem?_eq_some_iff.mp live).1).trans live
  · exact live

theorem getElem?_withDead_none (dies : lacks alphabet states step = true) :
    (withDead alphabet states step)[states.length]? = some none := by
  simp [withDead, dies]

theorem dead_lt_length_withDead
    (h : (if lacks alphabet states step then some states.length else none) = some q) :
    q < (withDead alphabet states step).length := by
  rw [length_withDead]
  split at h
  · next dies =>
    obtain rfl := Option.some.inj h
    simp [dies]
  · cases h

theorem HoldsSteps.enumerates (h : HoldsSteps alphabet states step init) : Enumerates alphabet
    (withDead alphabet states step) (fun x a => x.bind fun s => step s a) (some init) where
  head?_eq := by
    rw [withDead]
    split <;> simp [h.head?_eq]
  nodup := by
    have live : (states.map some).Nodup := h.nodup.map fun _ _ => Option.some.inj
    rw [withDead]
    split
    · exact List.nodup_append.mpr ⟨live, by simp, by simp⟩
    · exact live
  closed x hx a ha := by
    apply mem_withDead_iff.mpr
    rcases mem_withDead_iff.mp hx with ⟨s, hs, rfl⟩ | ⟨dies, rfl⟩
    · cases found : step s a with
      | some t => exact Or.inl ⟨t, h.closed s hs a ha t found, found.symm⟩
      | none => exact Or.inr ⟨lacks_of_step_eq_none hs ha found, found⟩
    · exact Or.inr ⟨dies, rfl⟩

end Dead

variable [DecidableEq σ] {accepts : σ → Bool} {dead : Option StateId}

theorem Enumerates.idxOf_init (h : Enumerates alphabet states next init) :
    states.idxOf init = 0 := by
  obtain ⟨rest, eq⟩ := List.head?_eq_some_iff.mp h.head?_eq
  rw [eq, List.idxOf_cons_self]

theorem of_next?_ofStates (hn : states.Nodup) {q t : StateId} {a : Symbol}
    (move : (ofStates alphabet states next accepts dead).next? q a = some t) :
    a ∈ alphabet ∧ ∃ s ∈ states, q = states.idxOf s ∧ t = states.idxOf (next s a) := by
  have key : (q, a) ∈ (rows alphabet states next).map Prod.fst := by
    have found : (q, a) ∈ (ofStates alphabet states next accepts dead).table := by
      rw [Std.ExtTreeMap.mem_iff_isSome_getElem?]
      exact Option.isSome_of_eq_some move
    rw [ofStates, Std.ExtTreeMap.mem_ofList, List.contains_iff_mem] at found
    exact found
  obtain ⟨row, hrow, hkey⟩ := List.mem_map.mp key
  obtain ⟨s, hs, hrow⟩ := List.mem_flatMap.mp hrow
  obtain ⟨b, hb, eq⟩ := List.mem_map.mp hrow
  have hb : b ∈ alphabet := Std.ExtTreeSet.mem_toList.mp hb
  rw [← eq] at hkey
  obtain ⟨hq, ha⟩ := Prod.mk.inj hkey
  have known := next?_ofStates alphabet next accepts dead hn hs hb
  rw [hq, ha] at known
  exact ⟨ha ▸ hb, s, hs, hq.symm, Option.some.inj (move.symm.trans known)⟩

section Places

variable {s : σ} {i j : StateId} {a : Symbol}

theorem idxOf_of_getElem? (hn : states.Nodup) (hi : states[i]? = some s) : states.idxOf s = i := by
  obtain ⟨place, rfl⟩ := List.getElem?_eq_some_iff.mp hi
  exact hn.idxOf_getElem i place

theorem next?_of_getElem? (hn : states.Nodup) (hi : states[i]? = some s) (ha : a ∈ alphabet)
    (hj : states[j]? = some (next s a)) :
    (ofStates alphabet states next accepts dead).next? i a = some j := by
  have move := next?_ofStates alphabet next accepts dead hn (List.mem_of_getElem? hi) ha
  rwa [idxOf_of_getElem? hn hi, idxOf_of_getElem? hn hj] at move

theorem Enumerates.isTotal (h : Enumerates alphabet states next init) :
    (ofStates alphabet states next accepts dead).IsTotal := by
  intro q hq a ha
  have below : q < states.length := hq
  have ha : a ∈ alphabet := Std.ExtTreeSet.mem_toList.mp ha
  have inside : next states[q] a ∈ states := h.closed _ (List.getElem_mem below) a ha
  obtain ⟨t, ht⟩ := List.mem_iff_getElem?.mp inside
  have move : (ofStates alphabet states next accepts dead).next? q a = some t :=
    next?_of_getElem? h.nodup (List.getElem?_eq_getElem below) ha ht
  exact Std.ExtTreeMap.mem_iff_isSome_getElem?.mpr (Option.isSome_of_eq_some move)

end Places

theorem mem_accepting_ofStates {q : StateId} :
    q ∈ (ofStates alphabet states next accepts dead).accepting ↔
      ∃ s ∈ states, accepts s = true ∧ states.idxOf s = q := by
  rw [ofStates, Std.ExtTreeSet.mem_ofList, List.contains_iff_mem, List.mem_map]
  simp only [List.mem_filter, and_assoc]

theorem Enumerates.wellFormed (h : Enumerates alphabet states next init)
    (hd : ∀ q, dead = some q → q < states.length) (he : Symbol.epsilon ∉ alphabet) :
    (ofStates alphabet states next accepts dead).WellFormed where
  start_lt := List.length_pos_of_mem h.init_mem
  dead_lt := hd
  accepting_lt q hq := by
    obtain ⟨s, hs, _, eq⟩ := mem_accepting_ofStates.mp hq
    rw [← eq]
    exact List.idxOf_lt_length_of_mem hs
  edge_lt q a t move := by
    obtain ⟨ha, s, hs, hq, ht⟩ := of_next?_ofStates h.nodup move
    rw [hq, ht]
    exact ⟨List.idxOf_lt_length_of_mem hs, List.idxOf_lt_length_of_mem (h.closed s hs a ha)⟩
  label_mem q a t move := (of_next?_ofStates h.nodup move).1
  epsilon_not_mem := he

theorem Enumerates.run_eq (h : Enumerates alphabet states next init) {s : σ} (hs : s ∈ states)
    {w : Word} (hw : ∀ a ∈ w, a ∈ alphabet) :
    (ofStates alphabet states next accepts dead).run (states.idxOf s) w =
      some (states.idxOf (w.foldl next s)) := by
  induction w generalizing s with
  | nil => rfl
  | cons a w ih =>
    have ha : a ∈ alphabet := hw a List.mem_cons_self
    rw [run, next?_ofStates alphabet next accepts dead h.nodup hs ha, Option.bind_some,
      ih (h.closed s hs a ha) (fun b hb => hw b (List.mem_cons_of_mem a hb)), List.foldl_cons]

theorem Enumerates.exists_run_iff (h : Enumerates alphabet states next init)
    (hd : ∀ q, dead = some q → q < states.length) (he : Symbol.epsilon ∉ alphabet) {w : Word} :
    (∃ q, (ofStates alphabet states next accepts dead).run 0 w = some q) ↔
      ∀ a ∈ w, a ∈ alphabet := by
  constructor
  · intro stops
    obtain ⟨q, run⟩ := stops
    exact (h.wellFormed hd he).mem_alphabet_of_run run
  · intro hw
    have run : (ofStates alphabet states next accepts dead).run (states.idxOf init) w = some _ :=
      h.run_eq h.init_mem hw
    rw [h.idxOf_init] at run
    exact ⟨_, run⟩

theorem isAccepting_ofStates {s : σ} (hs : s ∈ states) :
    (ofStates alphabet states next accepts dead).isAccepting (states.idxOf s) = accepts s := by
  rw [isAccepting, Bool.eq_iff_iff, Std.ExtTreeSet.contains_iff_mem, mem_accepting_ofStates]
  constructor
  · intro ht
    obtain ⟨t, ht, accept, eq⟩ := ht
    rw [← eq_of_idxOf_eq ht hs eq]
    exact accept
  · intro accept
    exact ⟨s, hs, accept, rfl⟩

theorem mem_accepting_of_getElem? (hn : states.Nodup) {i : StateId} {s : σ}
    (hi : states[i]? = some s) :
    i ∈ (ofStates alphabet states next accepts dead).accepting ↔ accepts s = true := by
  have judge : (ofStates alphabet states next accepts dead).isAccepting (states.idxOf s) =
      accepts s := isAccepting_ofStates (List.mem_of_getElem? hi)
  rw [← judge, idxOf_of_getElem? hn hi, isAccepting, Std.ExtTreeSet.contains_iff_mem]

theorem Enumerates.run_start (h : Enumerates alphabet states next init) {w : Word}
    (hw : ∀ a ∈ w, a ∈ alphabet) :
    (ofStates alphabet states next accepts dead).run
      (ofStates alphabet states next accepts dead).start w =
      some (states.idxOf (w.foldl next init)) := by
  have start : (ofStates alphabet states next accepts dead).start = states.idxOf init :=
    h.idxOf_init.symm
  rw [start, h.run_eq h.init_mem hw]

theorem Enumerates.accepts_eq (h : Enumerates alphabet states next init) {w : Word}
    (hw : ∀ a ∈ w, a ∈ alphabet) :
    (ofStates alphabet states next accepts dead).accepts w = accepts (w.foldl next init) := by
  rw [Dfa.accepts, h.run_start hw, Option.any_some,
    isAccepting_ofStates (h.foldl_mem h.init_mem hw)]

/-- No word is accepted but those over the alphabet. -/
theorem Enumerates.accepts_iff (h : Enumerates alphabet states next init)
    (hd : ∀ q, dead = some q → q < states.length) (he : Symbol.epsilon ∉ alphabet) {w : Word} :
    (ofStates alphabet states next accepts dead).accepts w = true ↔
      (∀ a ∈ w, a ∈ alphabet) ∧ accepts (w.foldl next init) = true := by
  constructor
  · intro ha
    have hw : ∀ a ∈ w, a ∈ alphabet := (h.wellFormed hd he).mem_alphabet_of_accepts ha
    exact ⟨hw, (h.accepts_eq hw).symm.trans ha⟩
  · intro ha
    exact (h.accepts_eq ha.1).trans ha.2

theorem Enumerates.merges_iff (h : Enumerates alphabet states next init) {u v : Word}
    (hu : ∀ a ∈ u, a ∈ alphabet) (hv : ∀ a ∈ v, a ∈ alphabet) :
    (ofStates alphabet states next accepts dead).Merges u v ↔
      u.foldl next init = v.foldl next init := by
  rw [Merges, h.run_start hu, h.run_start hv, Option.some.injEq]
  constructor
  · exact eq_of_idxOf_eq (h.foldl_mem h.init_mem hu) (h.foldl_mem h.init_mem hv)
  · intro same
    rw [same]

end RightLinear.Dfa
