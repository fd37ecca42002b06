import RightLinear.Proofs.BuiltByHand

namespace RightLinear

namespace Nfa

variable {n : Nfa}

theorem WellFormed.stateName?_eq_some_iff (h : n.WellFormed) {q : StateId} {name : String} :
    n.stateName? q = some name ↔ n.stateId? name = some q := by
  rw [stateName?, stateId?, List.getElem?_eq_some_iff, List.idxOf?_eq_some_iff]
  constructor
  · intro named
    obtain ⟨place, eq⟩ := named
    refine ⟨place, eq, ?_⟩
    intro p before same
    have twice : n.names[p] = n.names[q] := same.trans eq.symm
    exact Nat.ne_of_lt before (h.nodup_names.getElem_inj_iff.mp twice)
  · intro numbered
    obtain ⟨place, eq, _⟩ := numbered
    exact ⟨place, eq⟩

theorem exists_stateName?_iff (n : Nfa) (q : StateId) :
    (∃ name, n.stateName? q = some name) ↔ q < n.numStates := by
  rw [← Option.isSome_iff_exists, stateName?, isSome_getElem?]
  rfl

theorem Built.changed (h : n.Built) (c : Change) : (n.changed c).Built := by
  cases c with
  | state name => exact h.addState name
  | edge e => exact h.addEdge e
  | silent p q => exact h.addEdge ⟨p, Symbol.epsilon, q⟩
  | start q => exact h.setStart q
  | accepting q => exact h.addAccepting q

end Nfa

namespace Draft

variable {d : Draft}

theorem run_change_edge (e : Edge) (d : Draft) : (Draft.change (.edge e)).run.run d =
    match d.addEdge e with
    | .ok d' => (.ok none, d')
    | .error m => (.error m, d) := by
  rw [Draft.change, insertEdge, addEdge]
  by_cases silent : e.label.isEpsilon = true
  · rw [if_pos silent, if_pos silent]
    rfl
  · rw [if_neg silent, if_neg silent]
    rfl

theorem Built.changed (h : d.Built) (c : Change) : (d.changed c).Built := by
  cases c with
  | state => exact h.addState
  | dead => exact h.addDead
  | edge e =>
    rw [Draft.changed, run_change_edge]
    cases added : d.addEdge e with
    | error m => exact h
    | ok d' => exact h.addEdge added
  | start q => exact h.setStart q
  | accepting q => exact h.addAccepting q

theorem changed_eq_self_of_error {c : Change} {m : Misuse}
    (refused : ((Draft.change c).run.run d).1 = .error m) : d.changed c = d := by
  cases c with
  | edge e =>
    rw [changed]
    rw [run_change_edge] at refused ⊢
    cases added : d.addEdge e with
    | error m => rfl
    | ok d' =>
      rw [added] at refused
      cases refused
  | state => cases refused
  | dead => cases refused
  | start q => cases refused
  | accepting q => cases refused

end Draft

namespace Session

variable {s : Session}

section Registers

variable {α : Type} {P : α → Prop} {xs : List α}

theorem forall_mem_concat (h : ∀ x ∈ xs, P x) {x : α} (hx : P x) : ∀ y ∈ xs ++ [x], P y :=
  List.forall_mem_append.mpr ⟨h, List.forall_mem_singleton.mpr hx⟩

theorem forall_mem_set (h : ∀ x ∈ xs, P x) {x : α} (hx : P x) (i : Nat) : ∀ y ∈ xs.set i x, P y := by
  intro y hy
  rcases List.mem_or_eq_of_mem_set hy with old | new
  · exact h y old
  · exact new ▸ hx

theorem forall_mem_operands (h : ∀ x ∈ xs, P x) {is : List Nat} {ys : List α}
    (there : is.mapM (fun i => xs[i]?) = some ys) : ∀ y ∈ ys, P y := by
  induction is generalizing ys with
  | nil =>
    obtain rfl := Option.some.inj there
    exact fun y hy => absurd hy List.not_mem_nil
  | cons i is ih =>
    rw [List.mapM_cons] at there
    obtain ⟨z, first, rest⟩ := Option.bind_eq_some_iff.mp there
    obtain ⟨zs, others, eq⟩ := Option.bind_eq_some_iff.mp rest
    obtain rfl := Option.some.inj eq
    exact List.forall_mem_cons.mpr ⟨h z (List.mem_of_getElem? first), ih others⟩

end Registers

/-- All automata in the registers come from public operations. -/
structure Sound (s : Session) : Prop where
  nfaDrafts : ∀ n ∈ s.nfaDrafts, n.Built
  nfas : ∀ n ∈ s.nfas, n.Built
  dfaDrafts : ∀ d ∈ s.dfaDrafts, d.Built
  dfas : ∀ d ∈ s.dfas, d.Built

namespace Sound

theorem empty : Sound {} where
  nfaDrafts _ h := absurd h List.not_mem_nil
  nfas _ h := absurd h List.not_mem_nil
  dfaDrafts _ h := absurd h List.not_mem_nil
  dfas _ h := absurd h List.not_mem_nil

theorem storeNfa (h : s.Sound) {r : Except Error Nfa} (made : ∀ n, r = .ok n → n.Built) :
    (s.storeNfa r).2.Sound := by
  cases r with
  | error e => exact h
  | ok n => exact { h with nfas := forall_mem_concat h.nfas (made n rfl) }

theorem storeDfa (h : s.Sound) {r : Except Error Dfa} (made : ∀ d, r = .ok d → d.Built) :
    (s.storeDfa r).2.Sound := by
  cases r with
  | error e => exact h
  | ok d => exact { h with dfas := forall_mem_concat h.dfas (made d rfl) }

theorem withRegister {α : Type} (h : s.Sound) {register : Option α} {go : α → Reply × Session}
    (onward : ∀ x, register = some x → (go x).2.Sound) : (s.withRegister register go).2.Sound := by
  cases register with
  | none => exact h
  | some x => exact onward x rfl

theorem withPlace {α : Type} {P : α → Prop} {xs : List α} (h : s.Sound) (all : ∀ x ∈ xs, P x)
    {i : Nat} {go : α → Reply × Session} (onward : ∀ x, P x → (go x).2.Sound) :
    (s.withRegister xs[i]? go).2.Sound :=
  h.withRegister fun x there => onward x (all x (List.mem_of_getElem? there))

theorem perform (h : s.Sound) (c : Call) : (s.perform c).2.Sound := by
  cases c with
  | newNfa alphabet => exact { h with nfaDrafts := forall_mem_concat h.nfaDrafts (.ofAlphabet _) }
  | changeNfa i c =>
    refine h.withPlace h.nfaDrafts fun n built => ?_
    exact { h with nfaDrafts := forall_mem_set h.nfaDrafts (built.changed c) i }
  | buildNfa i =>
    refine h.withPlace h.nfaDrafts fun n built => h.storeNfa fun m eq => ?_
    exact Except.ok.inj eq ▸ built
  | newDfa alphabet => exact { h with dfaDrafts := forall_mem_concat h.dfaDrafts (.ofAlphabet _) }
  | changeDfa i c =>
    refine h.withPlace h.dfaDrafts fun d built => ?_
    exact { h with dfaDrafts := forall_mem_set h.dfaDrafts (built.changed c) i }
  | buildDfa i =>
    refine h.withPlace h.dfaDrafts fun d built => h.storeDfa fun e eq => ?_
    exact Except.ok.inj eq ▸ .finish built
  | grammarNfa c g => exact h.storeNfa fun n translated => .ofGrammar translated
  | grammarDfa c g =>
    refine h.storeDfa fun d eq => ?_
    obtain ⟨n, translated, rfl⟩ := Results.map_eq_ok_iff.mp eq
    exact .determinize (.ofGrammar translated)
  | determinize i =>
    refine h.withPlace h.nfas fun n built => h.storeDfa fun d eq => ?_
    exact Except.ok.inj eq ▸ .determinize built
  | complement i =>
    refine h.withPlace h.dfas fun d built => h.storeDfa fun e eq => ?_
    exact Except.ok.inj eq ▸ .complement built
  | union i j =>
    refine h.withPlace h.dfas fun l left => h.withPlace h.dfas fun r right => ?_
    exact h.storeDfa fun d made => .product left right made
  | intersection i j =>
    refine h.withPlace h.dfas fun l left => h.withPlace h.dfas fun r right => ?_
    exact h.storeDfa fun d made => .product left right made
  | unionAll is =>
    refine h.withRegister fun ds there => h.storeDfa fun d made => ?_
    exact .unionAll made (forall_mem_operands h.dfas there)
  | intersectionAll is =>
    refine h.withRegister fun ds there => h.storeDfa fun d made => ?_
    exact .intersectionAll made (forall_mem_operands h.dfas there)

theorem run (h : s.Sound) (calls : List Call) : (s.run calls).Sound := by
  induction calls generalizing s with
  | nil => exact h
  | cons c calls ih => exact ih (h.perform c)

end Sound

section Refusals

/-- The call was done, or it left everything as it was. -/
def DoneOrUnchanged (s : Session) (answer : Reply × Session) : Prop :=
  (∃ q, answer.1 = .done q) ∨ answer.2 = s

theorem doneOrUnchanged_storeNfa (r : Except Error Nfa) : s.DoneOrUnchanged (s.storeNfa r) := by
  cases r with
  | ok n => exact .inl ⟨none, rfl⟩
  | error e => exact .inr rfl

theorem doneOrUnchanged_storeDfa (r : Except Error Dfa) : s.DoneOrUnchanged (s.storeDfa r) := by
  cases r with
  | ok d => exact .inl ⟨none, rfl⟩
  | error e => exact .inr rfl

theorem doneOrUnchanged_withRegister {α : Type} {register : Option α} {go : α → Reply × Session}
    (onward : ∀ x, register = some x → s.DoneOrUnchanged (go x)) :
    s.DoneOrUnchanged (s.withRegister register go) := by
  cases register with
  | none => exact .inr rfl
  | some x => exact onward x rfl

theorem set_of_getElem? {α : Type} {xs : List α} {i : Nat} {x : α} (there : xs[i]? = some x) :
    xs.set i x = xs := by
  obtain ⟨place, rfl⟩ := List.getElem?_eq_some_iff.mp there
  exact List.set_getElem_self place

theorem doneOrUnchanged_changeDfa (i : Nat) (c : Draft.Change) :
    s.DoneOrUnchanged (s.perform (.changeDfa i c)) := by
  refine doneOrUnchanged_withRegister fun d there => ?_
  cases refused : ((Draft.change c).run.run d).1 with
  | ok q => exact .inl ⟨q, congrArg Reply.ofChange refused⟩
  | error m =>
    have same : d.changed c = d := Draft.changed_eq_self_of_error refused
    refine .inr ?_
    show { s with dfaDrafts := s.dfaDrafts.set i (d.changed c) } = s
    rw [same, set_of_getElem? there]

theorem doneOrUnchanged_perform (s : Session) (c : Call) : s.DoneOrUnchanged (s.perform c) := by
  cases c with
  | newNfa alphabet => exact .inl ⟨none, rfl⟩
  | changeNfa i c => exact doneOrUnchanged_withRegister fun n _ => .inl ⟨_, rfl⟩
  | buildNfa i => exact doneOrUnchanged_withRegister fun n _ => doneOrUnchanged_storeNfa _
  | newDfa alphabet => exact .inl ⟨none, rfl⟩
  | changeDfa i c => exact doneOrUnchanged_changeDfa i c
  | buildDfa i => exact doneOrUnchanged_withRegister fun d _ => doneOrUnchanged_storeDfa _
  | grammarNfa c g => exact doneOrUnchanged_storeNfa _
  | grammarDfa c g => exact doneOrUnchanged_storeDfa _
  | determinize i => exact doneOrUnchanged_withRegister fun n _ => doneOrUnchanged_storeDfa _
  | complement i => exact doneOrUnchanged_withRegister fun d _ => doneOrUnchanged_storeDfa _
  | union i j =>
    exact doneOrUnchanged_withRegister fun l _ =>
      doneOrUnchanged_withRegister fun r _ => doneOrUnchanged_storeDfa _
  | intersection i j =>
    exact doneOrUnchanged_withRegister fun l _ =>
      doneOrUnchanged_withRegister fun r _ => doneOrUnchanged_storeDfa _
  | unionAll is => exact doneOrUnchanged_withRegister fun ds _ => doneOrUnchanged_storeDfa _
  | intersectionAll is => exact doneOrUnchanged_withRegister fun ds _ => doneOrUnchanged_storeDfa _

theorem perform_silentEdge {i : Nat} (there : i < s.dfaDrafts.length) (p q : StateId) :
    s.perform (.changeDfa i (.edge ⟨p, Symbol.epsilon, q⟩)) = (.refused .silentEdge, s) := by
  have answer : (s.perform (.changeDfa i (.edge ⟨p, Symbol.epsilon, q⟩))).1 =
      .refused .silentEdge := by
    rw [perform, List.getElem?_eq_getElem there]
    rfl
  have unchanged : (s.perform (.changeDfa i (.edge ⟨p, Symbol.epsilon, q⟩))).2 = s := by
    rcases s.doneOrUnchanged_perform (.changeDfa i (.edge ⟨p, Symbol.epsilon, q⟩)) with done | same
    · obtain ⟨r, done⟩ := done
      exact absurd (answer.symm.trans done) nofun
    · exact same
  exact Prod.ext answer unchanged

end Refusals

section Reached

theorem run_append (s : Session) (xs ys : List Call) : s.run (xs ++ ys) = (s.run xs).run ys :=
  List.foldl_append

theorem run_changeNfa (cs : List Nfa.Change) (n : Nfa) :
    run { nfaDrafts := [n] } (cs.map (.changeNfa 0)) =
      { nfaDrafts := [cs.foldl Nfa.changed n] } := by
  induction cs generalizing n with
  | nil => rfl
  | cons c cs ih => exact ih (n.changed c)

theorem run_changeDfa (cs : List Draft.Change) (d : Draft) :
    run { dfaDrafts := [d] } (cs.map (.changeDfa 0)) =
      { dfaDrafts := [cs.foldl Draft.changed d] } := by
  induction cs generalizing d with
  | nil => rfl
  | cons c cs ih => exact ih (d.changed c)

/-- The nondeterministic automata that calls make are the well-formed ones. -/
theorem exists_mem_nfas_run_iff (n : Nfa) : (∃ calls, n ∈ (run {} calls).nfas) ↔ n.WellFormed := by
  constructor
  · intro made
    obtain ⟨calls, hn⟩ := made
    exact ((Sound.empty.run calls).nfas n hn).wellFormed
  · intro h
    obtain ⟨cs, whole⟩ := n.exists_changes h
    have drafted := run_changeNfa cs (.ofAlphabet (.ofList n.alphabet.toList))
    rw [whole] at drafted
    refine ⟨.newNfa n.alphabet.toList :: cs.map (.changeNfa 0) ++ [.buildNfa 0], ?_⟩
    have built : run {} (.newNfa n.alphabet.toList :: cs.map (.changeNfa 0) ++ [.buildNfa 0]) =
        run { nfaDrafts := [n] } [.buildNfa 0] := by
      rw [run_append, ← drafted]
      rfl
    rw [built]
    exact List.mem_singleton_self n

/-- The deterministic automata that calls make are the well-formed ones in which a dead state goes
with an alphabet that is used. -/
theorem exists_mem_dfas_run_iff (d : Dfa) :
    (∃ calls, d ∈ (run {} calls).dfas) ↔ d.WellFormed ∧ d.AlphabetUsed := by
  constructor
  · intro made
    obtain ⟨calls, hd⟩ := made
    have built := (Sound.empty.run calls).dfas d hd
    exact ⟨built.wellFormed, built.alphabetUsed⟩
  · intro h
    obtain ⟨alphabet, cs, whole⟩ := Dfa.exists_changes h.1 h.2
    refine ⟨.newDfa alphabet :: cs.map (.changeDfa 0) ++ [.buildDfa 0], ?_⟩
    have built : run {} (.newDfa alphabet :: cs.map (.changeDfa 0) ++ [.buildDfa 0]) =
        run { dfaDrafts := [cs.foldl Draft.changed (.ofAlphabet (.ofList alphabet))] }
          [.buildDfa 0] := by
      rw [run_append, ← run_changeDfa]
      rfl
    rw [built]
    exact List.mem_singleton.mpr whole.symm

end Reached

/-- Whatever is called, in whatever order and with whatever arguments, every automaton that comes
out is well-formed, and a draft that is offered a silent move stays as it was.  No well-formed
automaton is out of reach, unless a dead state stands beside a symbol that is never read. -/
theorem wellFormed_of_run :
    (∀ calls, ∀ d ∈ (run {} calls).dfas, d.WellFormed) ∧
    (∀ calls, ∀ n ∈ (run {} calls).nfas, Symbol.epsilon ∉ n.alphabet ∧
      (∀ e ∈ n.edges, e.label ≠ Symbol.epsilon → e.label ∈ n.alphabet) ∧
      (∀ q, (∃ name, n.stateName? q = some name) ↔ q < n.numStates) ∧
      ∀ q name, n.stateName? q = some name ↔ n.stateId? name = some q) ∧
    (∀ calls, ∀ i < (run {} calls).dfaDrafts.length, ∀ p q,
      (run {} calls).perform (.changeDfa i (.edge ⟨p, Symbol.epsilon, q⟩)) =
        (.refused .silentEdge, run {} calls)) ∧
    (∀ d : Dfa, d.WellFormed → d.AlphabetUsed → ∃ calls, d ∈ (run {} calls).dfas) ∧
    ∀ n : Nfa, n.WellFormed → ∃ calls, n ∈ (run {} calls).nfas := by
  refine ⟨?_, ?_, ?_, ?_, ?_⟩
  · intro calls d hd
    exact ((exists_mem_dfas_run_iff d).mp ⟨calls, hd⟩).1
  · intro calls n hn
    have h := (exists_mem_nfas_run_iff n).mp ⟨calls, hn⟩
    exact ⟨h.epsilon_not_mem, h.label_mem, n.exists_stateName?_iff,
      fun q name => h.stateName?_eq_some_iff⟩
  · intro calls i there p q
    exact perform_silentEdge there p q
  · intro d h used
    exact (exists_mem_dfas_run_iff d).mpr ⟨h, used⟩
  · intro n h
    exact (exists_mem_nfas_run_iff n).mpr h

/-- Dead states come early and twice, states are mentioned that nobody adds, and silent moves are
offered to both kinds of automata. -/
def mixedCalls : List Call :=
  [.newDfa ['a', 'ε'], .changeDfa 0 .dead, .changeDfa 0 (.edge ⟨7, 'b', 3⟩),
    .changeDfa 0 (.edge ⟨0, 'ε', 9⟩), .changeDfa 0 .dead, .changeDfa 0 (.accepting 4), .buildDfa 0,
    .complement 0, .intersectionAll [0, 1], .newNfa ['ε'], .changeNfa 0 (.state "x"),
    .changeNfa 0 (.silent 0 5), .changeNfa 0 (.edge ⟨5, 'b', 0⟩), .changeNfa 0 (.state "y"),
    .changeNfa 0 (.start 1), .buildNfa 0, .determinize 0]

def sinkDraft : Draft := (Draft.ofAlphabet (.ofList ['a'])).addDead.2.setStart 3

theorem wellFormed_of_run_mixedCalls :
    (run {} mixedCalls).dfas.map (fun d => (d.numStates, d.dead)) =
      [(8, some 1), (8, some 1), (2, none), (2, some 1)] ∧
    (∀ d ∈ (run {} mixedCalls).dfas, d.WellFormed) ∧
    (run {} mixedCalls).nfas.map (fun n => (n.hasSilent, n.names)) = [(true, ["x", "y"])] ∧
    (∀ n ∈ (run {} mixedCalls).nfas, Symbol.epsilon ∉ n.alphabet ∧
      ∀ q name, n.stateName? q = some name ↔ n.stateId? name = some q) ∧
    (run {} mixedCalls).perform (.changeDfa 0 (.edge ⟨0, Symbol.epsilon, 9⟩)) =
      (.refused .silentEdge, run {} mixedCalls) ∧
    (sinkDraft.finish.numStates = 4 ∧ ∃ calls, sinkDraft.finish ∈ (run {} calls).dfas) ∧
    ∃ calls, (Nfa.ofAlphabet ∅).addSilent 4 5 ∈ (run {} calls).nfas := by
  obtain ⟨dfas, nfas, drafts, allDfas, allNfas⟩ := wellFormed_of_run
  have sink : sinkDraft.finish.Built := .finish (.setStart 3 (.addDead (.ofAlphabet _)))
  have silent : ((Nfa.ofAlphabet ∅).addSilent 4 5).WellFormed := (Nfa.WellFormed.ofAlphabet ∅).addEdge _
  refine ⟨by decide +kernel, dfas mixedCalls, by decide +kernel, ?_,
    drafts mixedCalls 0 (by decide +kernel) 0 9,
    ⟨by decide +kernel, allDfas _ sink.wellFormed sink.alphabetUsed⟩, allNfas _ silent⟩
  intro n hn
  obtain ⟨plain, _, _, numbered⟩ := nfas mixedCalls n hn
  exact ⟨plain, numbered⟩

end Session

end RightLinear
