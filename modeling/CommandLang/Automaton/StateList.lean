import CommandLang.IdSet
import Std.Data.TreeMap.Lemmas

/-! States by number. A state is the set of its items, and states are numbered as they are found; a
set that is found again keeps its number. -/

namespace CommandLang

structure StateList where
  /-- The number of each state, under the bits of its set. -/
  index : Std.TreeMap Nat Nat
  sets : Array IdSet
  index_eq : ∀ (set : IdSet) (number : Nat), index[set.bits]? = some number ↔ sets[number]? = some set

namespace StateList

instance : EmptyCollection StateList := ⟨⟨∅, #[], by simp⟩⟩

def size (s : StateList) : Nat := s.sets.size

def get? (s : StateList) (number : Nat) : Option IdSet := s.sets[number]?

def number? (s : StateList) (set : IdSet) : Option Nat := s.index[set.bits]?

theorem number?_eq_some {s : StateList} {set : IdSet} {number : Nat} :
    s.number? set = some number ↔ s.get? number = some set :=
  s.index_eq set number

def add (s : StateList) (set : IdSet) (new : s.number? set = none) : StateList where
  index := s.index.insert set.bits s.sets.size
  sets := s.sets.push set
  index_eq := by
    intro other number
    rw [Std.TreeMap.getElem?_insert, Array.getElem?_push]
    by_cases same : other = set
    · subst same
      by_cases last : number = s.sets.size
      · simp [last]
      · have absent : s.sets[number]? ≠ some other := fun found => by
          rw [← s.index_eq] at found
          exact absurd (new.symm.trans found) (by simp)
        simp [last, absent, Ne.symm last]
    · have bits : ¬ set.bits = other.bits := fun equal => same (by cases set; cases other; simp_all)
      by_cases last : number = s.sets.size
      · have outside : s.index[other.bits]? ≠ some number := fun found => by
          have inside := (s.index_eq other number).1 found
          simp [last] at inside
        simp [bits, last, Ne.symm same, last ▸ outside]
      · simp [bits, last, s.index_eq]

@[simp] theorem sets_add (s : StateList) (set : IdSet) (new : s.number? set = none) :
    (s.add set new).sets = s.sets.push set := rfl

/-- The number of a state, which is added if it is new. -/
def place (s : StateList) (set : IdSet) : Nat × StateList :=
  match new : s.number? set with
  | some number => (number, s)
  | none => (s.size, s.add set new)

theorem get?_place (s : StateList) (set : IdSet) :
    (s.place set).2.get? (s.place set).1 = some set := by
  unfold place
  split
  · next number found => exact number?_eq_some.1 found
  · next new => simp [get?, size]

/-- States that were found keep their numbers. -/
theorem get?_place_of_some {s : StateList} {set other : IdSet} {number : Nat}
    (found : s.get? number = some other) : (s.place set).2.get? number = some other := by
  unfold place
  split
  · exact found
  · rw [get?] at found ⊢
    obtain ⟨inside, rfl⟩ := Array.getElem?_eq_some_iff.1 found
    simp [Array.getElem?_push, Nat.ne_of_lt inside]

def placeAll (s : StateList) : List IdSet → List Nat × StateList
  | [] => ([], s)
  | set :: rest =>
    let (number, s) := s.place set
    let (numbers, s) := s.placeAll rest
    (number :: numbers, s)

end StateList

end CommandLang
