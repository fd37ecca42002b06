import RightLinear.Proofs.Results
import RightLinear.Proofs.WrittenLines

namespace RightLinear

/-- What a line can be, once it is cut from the document and trimmed. -/
inductive Line.Sound : Line → Prop
  | caseHeader {id : String} : Text.FitsLine id → (∃ d ∈ id.toList.head?, d.isDigit = true) →
      Sound (.caseHeader id)
  | sectionHeader (name : String) : Sound (.sectionHeader name)
  | grammarHeader {name : String} : Text.FitsLine name → name.toList.head? = some 'G' →
      ¬ ['-', '>'] <:+: name.toList → Sound (.grammarHeader name)
  | content {text : List Char} : text ≠ [] → '\n' ∉ text → Text.trim text = text →
      Sound (.content text)

/-- Every case that has been read, the open one included, is made of parts of lines. -/
def Reader.Parsed (r : Reader) : Prop := ∀ t ∈ r.cases, t.Parsed

section Lines

variable {cs part : List Char}

theorem Text.fitsLine_trim (h : part ⊆ cs) (unbroken : '\n' ∉ cs) :
    Text.FitsLine (String.ofList (Text.trim part)) where
  unbroken hn := by
    rw [String.toList_ofList] at hn
    exact unbroken (h ((Text.trim_isInfix part).subset hn))
  trimmed := by rw [String.toList_ofList, Text.trim_trim]

theorem head?_headerText {c : Char} (trimmed : Text.trim cs = cs) (first : cs.head? = some c)
    (last : cs.getLast? = some ':') (ne : c ≠ ':') :
    (Line.headerText cs).toList.head? = some c := by
  -- The first character of a header is kept, since the colon that is cut off is another one.
  have plain : Text.isBlank c = false := ((Text.trim_eq_self_iff cs).mp trimmed).1 c first
  rw [Line.headerText, String.toList_ofList]
  cases cs with
  | nil => simp at first
  | cons b rest =>
    obtain rfl := Option.some.inj first
    cases rest with
    | nil => exact absurd (Option.some.inj last) ne
    | cons d rest => exact Text.head?_trim_cons plain _

theorem headerText_isInfix (cs : List Char) : (Line.headerText cs).toList <:+: cs := by
  rw [Line.headerText, String.toList_ofList]
  exact (Text.trim_isInfix _).trans (List.dropLast_prefix cs).isInfix

theorem Line.sound_ofText (nonempty : cs ≠ []) (unbroken : '\n' ∉ cs)
    (trimmed : Text.trim cs = cs) : (Line.ofText cs).Sound := by
  have header : Text.FitsLine (Line.headerText cs) :=
    Text.fitsLine_trim (List.dropLast_subset cs) unbroken
  rw [Line.ofText]
  split_ifs with isCase isSection isGrammar
  · simp only [Line.isCaseHeader, Bool.and_eq_true, beq_iff_eq, Option.any_eq_true] at isCase
    obtain ⟨⟨d, first, digit⟩, last⟩ := isCase
    have colon : d ≠ ':' := by
      rintro rfl
      exact absurd digit (by decide)
    exact .caseHeader header ⟨d, head?_headerText trimmed first last colon, digit⟩
  · exact .sectionHeader _
  · simp only [Line.isGrammarHeader, Bool.and_eq_true, beq_iff_eq, Option.isNone_iff_eq_none,
      Text.splitArrow?_eq_none_iff] at isGrammar
    obtain ⟨⟨first, last⟩, no_arrow⟩ := isGrammar
    exact .grammarHeader header (head?_headerText trimmed first last (by decide))
      fun arrow => no_arrow (arrow.trans (headerText_isInfix cs))
  · exact .content nonempty unbroken trimmed

end Lines

namespace Reader

variable {text : List Char} {r r' : Reader}

theorem symbol_eq_ok_iff {token : List Char} {a : Symbol} : symbol token = .ok a ↔ token = [a] := by
  rw [symbol, ← Symbol.ofText?_eq_some_iff]
  cases Symbol.ofText? token <;> simp

theorem isBlank_of_symbol_trim {a : Symbol} (h : symbol (Text.trim text) = .ok a) :
    Text.isBlank a = false := by
  have whole : Text.trim text = [a] := symbol_eq_ok_iff.mp h
  have ends := (Text.trim_eq_self_iff _).mp (Text.trim_trim text)
  rw [whole] at ends
  exact ends.1 a rfl

theorem listedSymbol_eq_ok_iff {token : List Char} {a : Symbol} :
    ((symbol token).bind fun b => if b = '|' then .error .reservedBar else .ok b) = .ok a ↔
      token = [a] ∧ a ≠ '|' := by
  rw [Results.bind_eq_ok_iff]
  simp only [symbol_eq_ok_iff]
  constructor
  · intro h
    obtain ⟨b, single, accepted⟩ := h
    split at accepted
    · cases accepted
    · next other =>
      obtain rfl := Except.ok.inj accepted
      exact ⟨single, other⟩
  · intro h
    exact ⟨a, h.1, if_neg h.2⟩

theorem plain_of_symbols {as : List Symbol} (h : symbols text = .ok as) :
    ∀ a ∈ as, Text.isBlank a = false ∧ a ≠ '|' := by
  intro a ha
  obtain ⟨token, listed, found⟩ := (Results.mem_iff h).mp ha
  obtain ⟨rfl, other⟩ := listedSymbol_eq_ok_iff.mp found
  exact ⟨Text.isBlank_of_mem_words listed List.mem_cons_self, other⟩

theorem parsed_of_alternatives {rs : List Rule} (h : alternatives text = .ok rs)
    (unbroken : '\n' ∉ text) : ∀ r ∈ rs, r.Parsed := by
  rw [alternatives] at h
  split at h
  · cases h
  · next before after split =>
    obtain ⟨lhs, single, rfl⟩ := Results.map_eq_ok_iff.mp h
    have cut : text = before ++ '-' :: '>' :: after := Text.eq_append_of_splitArrow? split
    have inside : after ⊆ text := by
      intro c hc
      rw [cut]
      exact List.mem_append_right _ (List.mem_cons_of_mem _ (List.mem_cons_of_mem _ hc))
    intro r hr
    obtain ⟨piece, hp, rfl⟩ := List.mem_map.mp hr
    have part : piece ⊆ text := fun c hc => inside (Text.of_mem_splitOnP hp hc).1
    refine ⟨isBlank_of_symbol_trim single, Text.fitsLine_trim part unbroken, ?_⟩
    rw [String.toList_ofList]
    exact fun bar => Text.not_mem_of_mem_splitOn hp ((Text.trim_isInfix piece).subset bar)

theorem named_ofName (nonempty : text ≠ []) (unbroken : '\n' ∉ text)
    (trimmed : Text.trim text = text) :
    (Request.ofName (String.ofList text)).Named Request.Unheard := by
  rw [Request.ofName]
  cases known : Operation.ofName? (String.ofList text) with
  | some o => exact .known o
  | none =>
    refine .unknown ⟨?_, by simpa using nonempty, ?_⟩
    · exact ⟨by simpa using unbroken, by simpa using trimmed⟩
    · intro o eq
      rw [← eq, Operation.ofName?_name] at known
      cases known

section Steps

variable {t : TestCase}

theorem Parsed.of_current (h : r.Parsed) (opened : r.current = some t) : t.Parsed :=
  h t (by simp [cases, opened])

theorem Parsed.setCurrent {s? : Option Section} (h : r.Parsed) (ht : t.Parsed) :
    Parsed { r with current := some t, openSection := s? } := by
  intro u hu
  rcases List.mem_append.mp hu with hu | hu
  · exact h u (List.mem_append_left _ hu)
  · exact List.mem_singleton.mp hu ▸ ht

theorem Parsed.modifyGrammar {f : Grammar → Grammar} (h : r.Parsed)
    (hf : ∀ g : Grammar, g.Parsed → (f g).Parsed) (modified : r.modifyGrammar f = .ok r') :
    r'.Parsed := by
  rw [Reader.modifyGrammar] at modified
  split at modified
  · cases modified
  · next t opened =>
    have ht : t.Parsed := h.of_current opened
    split at modified
    · cases modified
    · next g last =>
      obtain rfl := Except.ok.inj modified
      refine h.setCurrent { ht with grammars := ?_ }
      intro g' hg
      rcases List.mem_append.mp hg with hg | hg
      · exact ht.grammars g' (List.dropLast_subset _ hg)
      · exact List.mem_singleton.mp hg ▸ hf g (ht.grammars g (List.mem_of_getLast? last))

theorem Parsed.setRequest {q : Request} (h : r.Parsed) (hq : q.Named Request.Unheard)
    (set : r.setRequest q = .ok r') : r'.Parsed := by
  rw [Reader.setRequest] at set
  split at set
  · cases set
  · next t opened =>
    obtain rfl := Except.ok.inj set
    exact h.setCurrent { h.of_current opened with request := hq }

theorem plain_of_mem_insertMany {s : SymbolSet} {as : List Symbol} {P : Symbol → Prop}
    (hs : ∀ a ∈ s, P a) (has : ∀ a ∈ as, P a) : ∀ a ∈ s.insertMany as, P a := by
  intro a ha
  rcases Std.ExtTreeSet.mem_insertMany_list.mp ha with old | new
  · exact hs a old
  · exact has a (List.contains_iff_mem.mp new)

theorem Parsed.readContent (h : r.Parsed) (nonempty : text ≠ []) (unbroken : '\n' ∉ text)
    (trimmed : Text.trim text = text) (read : r.readContent text = .ok r') : r'.Parsed := by
  rw [Reader.readContent] at read
  split at read
  · cases read
  · obtain ⟨as, listed, modified⟩ := Results.bind_eq_ok_iff.mp read
    refine h.modifyGrammar (fun g hg => ?_) modified
    exact { hg with alphabet := plain_of_mem_insertMany hg.alphabet (plain_of_symbols listed) }
  · obtain ⟨vs, listed, modified⟩ := Results.bind_eq_ok_iff.mp read
    refine h.modifyGrammar (fun g hg => ?_) modified
    exact { hg with vars := plain_of_mem_insertMany hg.vars (plain_of_symbols listed) }
  · obtain ⟨v, single, modified⟩ := Results.bind_eq_ok_iff.mp read
    rw [← trimmed] at single
    refine h.modifyGrammar (fun g hg => ?_) modified
    exact { hg with start := fun u hu => Option.some.inj hu ▸ isBlank_of_symbol_trim single }
  · obtain ⟨rs, split, modified⟩ := Results.bind_eq_ok_iff.mp read
    refine h.modifyGrammar (fun g hg => ?_) modified
    exact { hg with
      rules := List.forall_mem_append.mpr ⟨hg.rules, parsed_of_alternatives split unbroken⟩ }
  · exact h.setRequest (named_ofName nonempty unbroken trimmed) read

theorem Parsed.read {x : Line} (h : r.Parsed) (hx : x.Sound) (read : r.read x = .ok r') :
    r'.Parsed := by
  cases hx with
  | @caseHeader id fits initial =>
    obtain rfl := Except.ok.inj read
    have opened : TestCase.Parsed { id := id } := ⟨fits, initial, by simp, .missing⟩
    exact List.forall_mem_append.mpr ⟨h, List.forall_mem_singleton.mpr opened⟩
  | sectionHeader name =>
    rw [Reader.read] at read
    split at read
    · obtain rfl := Except.ok.inj read
      exact h
    · cases read
  | @grammarHeader name fits initial no_arrow =>
    rw [Reader.read] at read
    split at read
    · cases read
    · next t opened =>
      obtain rfl := Except.ok.inj read
      have ht : t.Parsed := h.of_current opened
      have hg : Grammar.Parsed { name := name } :=
        ⟨fits, initial, no_arrow, by simp, by simp, nofun, by simp⟩
      exact h.setCurrent { ht with
        grammars := List.forall_mem_append.mpr ⟨ht.grammars, List.forall_mem_singleton.mpr hg⟩ }
  | content nonempty unbroken trimmed => exact h.readContent nonempty unbroken trimmed read

theorem Parsed.readLine {line : List Char} (h : r.Parsed) (unbroken : '\n' ∉ line)
    (read : r.readLine line = .ok r') : r'.Parsed := by
  rw [Reader.readLine] at read
  split at read
  · next significant =>
    have nonempty : Text.trim line ≠ [] := by
      intro empty
      rw [empty] at significant
      cases significant
    have whole : '\n' ∉ Text.trim line := fun hn => unbroken ((Text.trim_isInfix line).subset hn)
    exact h.read (Line.sound_ofText nonempty whole (Text.trim_trim line)) read
  · obtain rfl := Except.ok.inj read
    exact h

theorem Parsed.readLines {lines : List (List Char)} (h : r.Parsed)
    (unbroken : ∀ line ∈ lines, '\n' ∉ line) (read : lines.foldlM Reader.readLine r = .ok r') :
    r'.Parsed := by
  have step : ∀ line ∈ lines, ∀ s s' : Reader, s.Parsed → s.readLine line = .ok s' → s'.Parsed :=
    fun line hline _ _ hs read => hs.readLine (unbroken line hline) read
  exact Results.foldlM_invariant h step read

end Steps

end Reader

/-- The cases of every document that can be read are made of parts of its lines. -/
theorem Document.parsed_of_parse {document : String} {ts : List TestCase}
    (h : parse document = .ok ts) : ∀ t ∈ ts, t.Parsed := by
  obtain ⟨r, read, rfl⟩ := (parse_eq_ok_iff document ts).mp h
  have begun : Reader.Parsed {} := by simp [Reader.Parsed, Reader.cases]
  exact begun.readLines (fun _ => Text.not_mem_of_mem_splitOn) read

end RightLinear
