import RightLinear.StateSet

namespace RightLinear

/-- Rows of bits, with what sets of states need of them. -/
class BitRow (β : Type) where
  clear : Nat → β
  length : β → Nat
  /-- Makes a row as long as is said, unless it is longer. -/
  grow : β → Nat → β
  /-- Sets a bit and says whether it was set before.  A row can refuse a bit that it does not
  have. -/
  put? : β → Nat → Option (Bool × β)
  setAll : β → β
  test : β → Nat → Bool
  isClear : β → Bool
  count : β → Nat
  ones : β → List Nat
  unionWith : β → β → β
  intersection : β → β → List Nat
  differenceWith : β → β → β

open BitRow in
/-- Every operation acts on each bit by itself, and past its end a row has no bit that is set. -/
class LawfulBitRow (β : Type) [BitRow β] : Prop where
  length_clear : ∀ n, length (clear n : β) = n
  test_clear : ∀ n i, test (clear n : β) i = false
  test_of_length_le : ∀ (b : β) i, length b ≤ i → test b i = false
  length_grow : ∀ (b : β) n, length (grow b n) = max (length b) n
  test_grow : ∀ (b : β) n i, test (grow b n) i = test b i
  put?_of_lt : ∀ (b : β) i, i < length b →
    ∃ c, put? b i = some (test b i, c) ∧ ∀ j, test c j = (j == i || test b j)
  test_setAll : ∀ (b : β) i, test (setAll b) i = decide (i < length b)
  isClear_iff : ∀ b : β, isClear b = true ↔ ∀ i, test b i = false
  count_eq : ∀ b : β, count b = (List.range (length b)).countP (test b)
  ones_eq : ∀ b : β, ones b = (List.range (length b)).filter (test b)
  test_unionWith : ∀ (b c : β) i, test (unionWith b c) i = (test b i || test c i)
  intersection_eq : ∀ b c : β,
    intersection b c = (List.range (length b)).filter fun i => test b i && test c i
  test_differenceWith : ∀ (b c : β) i, test (differenceWith b c) i = (test b i && !test c i)

/-- How many states can be told apart: their numbers are kept in 32 bits, and what does not fit is
cut off. -/
def idCount : Nat := UInt32.size

/-- The state for which a place of a row stands. -/
def stateAt (i : Nat) : StateId := i % idCount

/-- A set of states: its members are those for which the bits that are set stand. -/
structure BitSet (β : Type) where
  bits : β

namespace BitSet

variable {β : Type} [BitRow β]

def withCapacity (n : Nat) : BitSet β := ⟨BitRow.clear n⟩

def grownFor (s : BitSet β) (q : StateId) : β :=
  if BitRow.length s.bits ≤ q then BitRow.grow s.bits (q + 1) else s.bits

/-- Adds a state and says whether it was missing.  There is no result if the row refuses its bit. -/
def insert? (s : BitSet β) (q : StateId) : Option (Bool × BitSet β) :=
  (BitRow.put? (s.grownFor q) q).map fun (old, bits) => (!old, ⟨bits⟩)

def insertAll? (s : BitSet β) (qs : List StateId) : Option (BitSet β) :=
  qs.foldlM (fun s q => (s.insert? q).map Prod.snd) s

def singleton? (q : StateId) (capacity : Nat) : Option (BitSet β) :=
  ((withCapacity capacity).insert? q).map Prod.snd

def ofList? (qs : List StateId) : Option (BitSet β) := (withCapacity 0).insertAll? qs

def full (n : Nat) : BitSet β := ⟨BitRow.setAll (BitRow.clear n)⟩

def contains (s : BitSet β) (q : StateId) : Bool := BitRow.test s.bits q

def isEmpty (s : BitSet β) : Bool := BitRow.isClear s.bits

def size (s : BitSet β) : Nat := BitRow.count s.bits

def members (s : BitSet β) : List StateId := (BitRow.ones s.bits).map stateAt

def unionWith (s t : BitSet β) : BitSet β :=
  let bits := if BitRow.length s.bits < BitRow.length t.bits
    then BitRow.grow s.bits (BitRow.length t.bits) else s.bits
  ⟨BitRow.unionWith bits t.bits⟩

def difference (s t : BitSet β) : BitSet β := ⟨BitRow.differenceWith s.bits t.bits⟩

def meets (s t : BitSet β) : Bool := !(BitRow.intersection s.bits t.bits).isEmpty

/-- Whether two sets have the same members, in rows of whatever length. -/
def same (s t : BitSet β) : Bool := s.members == t.members

def feed {η : Type} (s : BitSet β) (write : η → StateId → η) (hasher : η) : η :=
  s.members.foldl write hasher

end BitSet

end RightLinear
