import CommandLang.IdSet

/-! Least sets of numbers closed under a rule. Two forms are enough for grammars: repeating a step
until nothing changes, and following successors from a start. Both take a bound on the rounds. -/

namespace CommandLang

/-- Repeats `step` until it changes nothing, `rounds` times at most. -/
def saturate {α : Type} [DecidableEq α] (step : α → α) : (rounds : Nat) → α → α
  | 0, value => value
  | rounds + 1, value =>
    let next := step value
    if next = value then value else saturate step rounds next

namespace IdSet

/-- Adds to `seen` what its newest part `frontier` leads to, round by round. -/
def spread (successors : Nat → IdSet) : (rounds : Nat) → (seen frontier : IdSet) → IdSet
  | 0, seen, _ => seen
  | rounds + 1, seen, frontier =>
    let next := (unions (frontier.toList.map successors)).diff seen
    if next = ∅ then seen else spread successors rounds (seen ∪ next) next

/-- The numbers that paths of up to `rounds` steps lead to from `start`, which is one of them. -/
def reachable (successors : Nat → IdSet) (rounds start : Nat) : IdSet :=
  spread successors rounds (ofList [start]) (ofList [start])

/-- The sets `f 0`, …, `f (count - 1)`, worked out once. -/
def table (count : Nat) (f : Nat → IdSet) : Array IdSet := ((List.range count).map f).toArray

end IdSet

end CommandLang
