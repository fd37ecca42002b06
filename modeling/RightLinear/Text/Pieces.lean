import RightLinear.Text.Blank

namespace RightLinear.Text

def trimStart (cs : List Char) : List Char := cs.dropWhile isBlank

def trimEnd (cs : List Char) : List Char := (cs.reverse.dropWhile isBlank).reverse

def trim (cs : List Char) : List Char := trimEnd (trimStart cs)

/-- The longest pieces of a text that hold no blank. -/
def words (cs : List Char) : List (List Char) := (cs.splitOnP isBlank).filter fun w => !w.isEmpty

/-- What stands before and after the first `->`. -/
def splitArrow? : List Char → Option (List Char × List Char)
  | '-' :: '>' :: cs => some ([], cs)
  | c :: cs => (splitArrow? cs).map fun (before, after) => (c :: before, after)
  | [] => none

def isToken (cs : List Char) : Bool := !cs.isEmpty && !cs.any isBlank

theorem trim_append_left {pad : List Char} (h : ∀ c ∈ pad, isBlank c = true) (cs : List Char) :
    trim (pad ++ cs) = trim cs := by
  rw [trim, trimStart, List.dropWhile_append_of_pos h, trim, trimStart]

theorem trim_append_right {pad : List Char} (h : ∀ c ∈ pad, isBlank c = true) (cs : List Char) :
    trim (cs ++ pad) = trim cs := by
  have hr : ∀ c ∈ pad.reverse, isBlank c = true := fun c hc => h c (List.mem_reverse.1 hc)
  have hp : pad.dropWhile isBlank = [] := by
    rw [← List.append_nil pad, List.dropWhile_append_of_pos h, List.dropWhile_nil]
  rw [trim, trim, trimStart, trimStart, List.dropWhile_append]
  cases cs.dropWhile isBlank with
  | nil => rw [List.isEmpty_nil, if_pos rfl, hp]
  | cons x xs =>
    rw [List.isEmpty_cons, if_neg Bool.false_ne_true, trimEnd, trimEnd, List.reverse_append,
      List.dropWhile_append_of_pos hr]

theorem words_append_cons {b : Char} (h : isBlank b = true) (xs ys : List Char) :
    words (xs ++ b :: ys) = words xs ++ words ys := by
  rw [words, List.splitOnP_append_cons xs ys h, List.filter_append, words, words]

theorem eq_append_of_splitArrow? {cs before after : List Char}
    (h : splitArrow? cs = some (before, after)) : cs = before ++ '-' :: '>' :: after := by
  fun_induction splitArrow? cs generalizing before after with
  | case1 cs => simp_all
  | case2 c cs _ ih =>
    obtain ⟨⟨b, a⟩, hs, he⟩ := Option.map_eq_some_iff.1 h
    obtain ⟨rfl, rfl⟩ := Prod.mk.inj he
    exact congrArg (c :: ·) (ih hs)
  | case3 => simp at h

end RightLinear.Text
