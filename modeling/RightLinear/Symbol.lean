import Std.Data.ExtTreeSet

namespace RightLinear

abbrev Symbol := Char

abbrev Word := List Symbol

/-- A finite set of symbols, listed by code point. -/
abbrev SymbolSet := Std.ExtTreeSet Symbol

namespace Symbol

def epsilon : Symbol := 'ε'

def isEpsilon (a : Symbol) : Bool := a == epsilon

/-- A text names a symbol when it is exactly one character long. -/
def ofText? : List Char → Option Symbol
  | [a] => some a
  | _ => none

@[simp] theorem isEpsilon_iff (a : Symbol) : a.isEpsilon = true ↔ a = epsilon := by
  simp [isEpsilon]

@[simp] theorem ofText?_eq_some_iff (t : List Char) (a : Symbol) :
    ofText? t = some a ↔ t = [a] := by
  match t with
  | [] => simp [ofText?]
  | [b] => simp [ofText?]
  | _ :: _ :: _ => simp [ofText?]

end Symbol

namespace SymbolSet

/-- The symbols of a set that can be read from a word. -/
def readable (s : SymbolSet) : SymbolSet := s.erase Symbol.epsilon

/-- The set between braces, as in `{a, b}`. -/
def text (s : SymbolSet) : String :=
  "\x7b" ++ ", ".intercalate (s.toList.map fun a => a.toString) ++ "\x7d"

theorem mem_readable (s : SymbolSet) (a : Symbol) :
    a ∈ s.readable ↔ a ∈ s ∧ a ≠ Symbol.epsilon := by
  simp only [readable, Std.ExtTreeSet.mem_erase, ne_eq, Std.LawfulEqCmp.compare_eq_iff_eq]
  rw [and_comm, eq_comm]

end SymbolSet

end RightLinear
