import CommandLang.Automaton.Row
import CommandLang.Automaton.StateList
import CommandLang.Grouping
import CommandLang.Sort

/-! The states of an automaton, found one after the other. A state is the closure of what the items
of an earlier state become behind one symbol; states are numbered as they are found, and each is
visited once. A visit that meets a token with two reductions ends the search, because the states
still to come can be very many and none of them would mend this one. Items are listed in the order in
which they were met, which also decides the order in which the symbols behind their dots are
followed; no set of items depends on that order. -/

namespace CommandLang

structure Ranks where
  met : IdSet
  count : Nat
  /-- The rank of every item that was met, by code. -/
  table : Array Nat

namespace Ranks

def meet (r : Ranks) (code : Nat) : Ranks :=
  if code ∈ r.met then r
  else ⟨r.met.insert code, r.count + 1, r.table.setIfInBounds code r.count⟩

def before (r : Ranks) (code other : Nat) : Bool := r.table[code]?.getD 0 < r.table[other]?.getD 0

def sort (r : Ranks) (codes : List Nat) : List Nat := sortBy r.before codes

end Ranks

/-- A state in which one token asks for two reductions. -/
structure Clash where
  state : Nat
  items : List Item
  token : Nat
  first : Nat
  second : Nat
deriving DecidableEq, Repr

/-- The states found so far, and a row for each state that was visited. -/
structure Survey where
  ranks : Ranks
  states : StateList
  rows : Array Row

def Symbol.code : Symbol Nat Nat → Nat
  | .terminal token => 2 * token
  | .nonterminal a => 2 * a + 1

theorem Symbol.code_inj (x y : Symbol Nat Nat) (equal : x.code = y.code) : x = y := by
  cases x <;> cases y <;> simp only [code] at equal <;> first | omega | (congr 1; omega)

namespace Blueprint

variable (b : Blueprint)

def predictions (code : Nat) : List Nat :=
  (((b.next? code).bind Symbol.nonterminal?).bind fun a => b.fresh[a]?).getD []

/-- Meets the items of a closure layer by layer: each layer holds what the one before predicts and
`seen` lacks, in the order in which it was met. -/
def meetLayers : (rounds : Nat) → (seen : IdSet) → (layer : List Nat) → Ranks → Ranks
  | 0, _, _, ranks => ranks
  | rounds + 1, seen, layer, ranks =>
    let predicted := layer.flatMap b.predictions
    let ranks := predicted.foldl Ranks.meet ranks
    let next := (IdSet.ofList predicted).diff seen
    if next = ∅ then ranks else meetLayers rounds (seen ∪ next) (ranks.sort next.toList) ranks

def meetClosure (kernel : List Nat) (closure : IdSet) (ranks : Ranks) : Ranks :=
  if closure.diff ranks.met = ∅ then ranks
  else b.meetLayers (b.grammar.rules.size + 1) (.ofList kernel) (ranks.sort kernel) ranks

/-- Where a state leads: each symbol behind a dot with what its items become, in the order in which
they come in `items`. -/
def kernels (items : List Nat) : List (Symbol Nat Nat × List Nat) :=
  group Symbol.code (items.filterMap b.advance?)

theorem kernels_eq (items : List Nat) :
    b.kernels items = ((items.filterMap b.advance?).map Prod.fst).eraseDups.map fun symbol =>
      (symbol, membersOf symbol (items.filterMap b.advance?)) :=
  group_eq Symbol.code_inj _

/-- What an item reduces: a rule that has been seen as a whole on every token that can follow its
left-hand side, the rule of the added start symbol at the end of the input. -/
def reduction? (code : Nat) : Option Reduction :=
  if b.accepts code then some ⟨b.acceptRule, .ofList [Token.eos]⟩
  else match b.grammar.rules[code / b.width]? with
    | none => none
    | some rule =>
      if code % b.width = rule.rhs.length then
        some ⟨code / b.width, (b.follow[rule.lhs]?).getD ∅⟩
      else none

end Blueprint

namespace Survey

variable (b : Blueprint)

def initial : Survey :=
  let kernel := [b.acceptRule * b.width]
  let closure := b.closure kernel
  let ranks := kernel.foldl Ranks.meet ⟨∅, 0, Array.replicate b.codes 0⟩
  { ranks := b.meetClosure kernel closure ranks
    states := ((∅ : StateList).place closure).2
    rows := #[] }

def visit : Survey → IdSet → Except Clash Survey
  | ⟨ranks, states, rows⟩, state =>
    let codes := ranks.sort state.toList
    let items := codes.map (Item.ofCode b.width)
    let reductions := codes.filterMap b.reduction?
    match reduceReduce? reductions with
    | some (token, first, second) => .error ⟨rows.size, items, token, first, second⟩
    | none =>
      let targets := (b.kernels codes).map fun (symbol, kernel) => (symbol, kernel, b.closure kernel)
      let ranks := (codes.filterMap b.advance?).foldl (fun ranks (_, code) => ranks.meet code) ranks
      let ranks := targets.foldl (fun ranks (_, kernel, closure) => b.meetClosure kernel closure ranks) ranks
      let (numbers, states) := states.placeAll (targets.map fun (_, _, closure) => closure)
      .ok ⟨ranks, states, rows.push ⟨items, reductions, (targets.map Prod.fst).zip numbers⟩⟩

/-- Visits states until each has its row, `rounds` states at most. -/
def explore : (rounds : Nat) → Survey → Except Clash Survey
  | 0, s => .ok s
  | rounds + 1, s =>
    match s.states.get? s.rows.size with
    | none => .ok s
    | some state =>
      match s.visit b state with
      | .error clash => .error clash
      | .ok s => explore rounds s

end Survey

/-- All states. There are no more of them than sets of items. -/
def Blueprint.survey (b : Blueprint) : Except Clash Survey :=
  Survey.explore b (Nat.pow 2 b.codes) (Survey.initial b)

end CommandLang
