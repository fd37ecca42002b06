import RightLinear.StateSet.Bits

namespace RightLinear

/-- A kind of sets of states, with all that can be done with them.  What has an `Option` for its
result may come to nothing. -/
class SetKind (σ : Type) where
  withCapacity : Nat → σ
  singleton? : StateId → Nat → Option σ
  full : Nat → σ
  ofList? : List StateId → Option σ
  insert? : σ → StateId → Option (Bool × σ)
  insertAll? : σ → List StateId → Option σ
  unionWith : σ → σ → σ
  difference : σ → σ → σ
  contains : σ → StateId → Bool
  isEmpty : σ → Bool
  size : σ → Nat
  members : σ → List StateId
  meets : σ → σ → Bool
  same : σ → σ → Bool
  /-- What a hasher is fed with. -/
  fed : σ → List StateId

instance {β : Type} [BitRow β] : SetKind (BitSet β) where
  withCapacity := BitSet.withCapacity
  singleton? := BitSet.singleton?
  full := BitSet.full
  ofList? := BitSet.ofList?
  insert? := BitSet.insert?
  insertAll? := BitSet.insertAll?
  unionWith := BitSet.unionWith
  difference := BitSet.difference
  contains := BitSet.contains
  isEmpty := BitSet.isEmpty
  size := BitSet.size
  members := BitSet.members
  meets := BitSet.meets
  same := BitSet.same
  fed s := s.feed (fun fed q => fed ++ [q]) []

/-- Sets that are nothing but their members have no capacity. -/
instance : SetKind StateSet where
  withCapacity _ := ∅
  singleton? q _ := some {q}
  full := StateSet.full
  ofList? qs := some (.ofList qs)
  insert? s q := some (s.add q)
  insertAll? s qs := some (s.addAll qs)
  unionWith s t := s ∪ t
  difference s t := s \ t
  contains s q := s.contains q
  isEmpty s := s.isEmpty
  size s := s.size
  members s := s.toList
  meets := StateSet.meets
  same s t := decide (s = t)
  fed s := s.toList

namespace SetKind

/-- Registers are given by their places. -/
inductive Call
  | withCapacity (n : Nat)
  | singleton (q : StateId) (capacity : Nat)
  | full (n : Nat)
  | ofList (qs : List StateId)
  | clone (i : Nat)
  | insert (i : Nat) (q : StateId)
  | insertAll (i : Nat) (qs : List StateId)
  | unionWith (i j : Nat)
  | difference (i j : Nat)
  | contains (i : Nat) (q : StateId)
  | isEmpty (i : Nat)
  | size (i : Nat)
  | members (i : Nat)
  | meets (i j : Nat)
  | same (i j : Nat)
  | hash (i : Nat)

/-- The states that a call puts into a set, other than from a set. -/
def Call.added : Call → List StateId
  | .singleton q _ | .insert _ q => [q]
  | .full n => List.range n
  | .ofList qs | .insertAll _ qs => qs
  | _ => []

inductive Answer
  | done
  | truth (b : Bool)
  | number (n : Nat)
  | listed (qs : List StateId)
  | noRegister
  deriving DecidableEq

variable {σ : Type} [SetKind σ]

abbrev Step (σ : Type) : Type := Option (Answer × List σ)

def store (sets : List σ) (made : Option σ) : Step σ := made.map fun s => (.done, sets ++ [s])

def withSet (sets : List σ) (i : Nat) (go : σ → Step σ) : Step σ :=
  (sets[i]?).elim (some (.noRegister, sets)) go

def look (sets : List σ) (answer : Answer) : Step σ := some (answer, sets)

def perform (sets : List σ) : Call → Step σ
  | .withCapacity n => store sets (some (withCapacity n))
  | .singleton q capacity => store sets (singleton? q capacity)
  | .full n => store sets (some (full n))
  | .ofList qs => store sets (ofList? qs)
  | .clone i => withSet sets i fun s => store sets (some s)
  | .insert i q => withSet sets i fun s =>
    (insert? s q).map fun (missing, s) => (.truth missing, sets.set i s)
  | .insertAll i qs => withSet sets i fun s =>
    (insertAll? s qs).map fun s => (.done, sets.set i s)
  | .unionWith i j => withSet sets i fun s => withSet sets j fun t =>
    some (.done, sets.set i (unionWith s t))
  | .difference i j => withSet sets i fun s => withSet sets j fun t =>
    store sets (some (difference s t))
  | .contains i q => withSet sets i fun s => look sets (.truth (contains s q))
  | .isEmpty i => withSet sets i fun s => look sets (.truth (isEmpty s))
  | .size i => withSet sets i fun s => look sets (.number (size s))
  | .members i => withSet sets i fun s => look sets (.listed (members s))
  | .meets i j => withSet sets i fun s => withSet sets j fun t =>
    look sets (.truth (meets s t))
  | .same i j => withSet sets i fun s => withSet sets j fun t =>
    look sets (.truth (same s t))
  | .hash i => withSet sets i fun s => look sets (.listed (fed s))

/-- The answers to a sequence of calls, unless one of them comes to nothing. -/
def answersFrom (sets : List σ) : List Call → Option (List Answer)
  | [] => some []
  | call :: calls =>
    (perform sets call).bind fun (answer, sets) => (answersFrom sets calls).map (answer :: ·)

variable (σ) in
def answers (calls : List Call) : Option (List Answer) := answersFrom ([] : List σ) calls

end SetKind

end RightLinear
