import Std.Data.ExtTreeMap
import RightLinear.StateSet
import RightLinear.Symbol

namespace RightLinear

open Std

abbrev Reading := StateId × Symbol

instance : Ord Reading := lexOrd

structure Edge where
  source : StateId
  label : Symbol
  target : StateId
  deriving DecidableEq

namespace Edge

instance : Ord Edge :=
  ⟨compareLex (compareOn source) (compareLex (compareOn label) (compareOn target))⟩

instance : TransOrd Edge := inferInstanceAs (TransCmp (compareLex _ (compareLex _ _)))

instance : LawfulEqOrd Edge where
  eq_of_compare {a b} h := by
    cases a; cases b
    change compareLex _ (compareLex _ _) _ _ = _ at h
    simpa [compareLex, compareOn, Ordering.then_eq_eq] using h

end Edge

end RightLinear
