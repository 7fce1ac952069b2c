import CommandLang.Automaton.Lookahead

/-! Items and their closures. An item is a rule with a dot in it: what stands before the dot has been
seen. Items are coded as numbers, so that a set of items is a set of numbers. The closure of a set
adds the rules of every nonterminal that can come next, which are those of the nonterminals that
lead to each other by standing first in a rule. -/

namespace CommandLang

structure Item where
  rule : Nat
  dot : Nat
deriving DecidableEq, Repr

/-- What the construction of an automaton needs to know about an augmented grammar. -/
structure Blueprint where
  grammar : Numbered
  /-- One more than the length of the longest rule. -/
  width : Nat
  /-- The codes of each nonterminal's rules with the dot in front. -/
  fresh : Array (List Nat)
  /-- The same for all nonterminals that a nonterminal leads to. -/
  predicted : Array IdSet
  follow : Array IdSet

def Item.code (width : Nat) (item : Item) : Nat := item.rule * width + item.dot

def Item.ofCode (width code : Nat) : Item := ⟨code / width, code % width⟩

namespace Numbered

variable (g : Numbered)

def itemWidth : Nat := (g.ruleList.map (·.rhs.length)).foldl max 0 + 1

def corners (a : Nat) : IdSet :=
  .ofList ((g.ruleList.filter (·.lhs = a)).filterMap fun rule => rule.rhs.head?.bind Symbol.nonterminal?)

/-- Everything about the augmented grammar that does not change during the construction. -/
def blueprintWith (ahead : Lookahead) : Blueprint :=
  let width := g.itemWidth
  let fresh := ((List.range g.names.size).map fun a => (g.rulesOf a).map (· * width)).toArray
  let corners := IdSet.table g.names.size g.corners
  { grammar := g, width, fresh
    predicted := IdSet.table g.names.size fun a =>
      let reached := IdSet.reachable (fun b => corners[b]?.getD ∅) (g.rules.size + 1) a
      .ofList (reached.toList.flatMap fun b => fresh[b]?.getD [])
    follow := ahead.follow }

def blueprint : Blueprint := g.blueprintWith g.lookahead

end Numbered

namespace Blueprint

variable (b : Blueprint)

def codes : Nat := b.grammar.rules.size * b.width

/-- The rule that leads from the added start symbol to the old one. -/
def acceptRule : Nat := b.grammar.rules.size - 1

def next? (code : Nat) : Option (Symbol Nat Nat) :=
  (b.grammar.rules[code / b.width]?).bind (·.rhs[code % b.width]?)

def accepts (code : Nat) : Bool := code == b.acceptRule * b.width + 1

/-- A set of items together with all rules that can come next. -/
def closure (kernel : List Nat) : IdSet :=
  .ofList kernel ∪ .unions (kernel.filterMap fun code =>
    ((b.next? code).bind Symbol.nonterminal?).map fun a => b.predicted[a]?.getD ∅)

/-- What an item becomes when the symbol behind its dot has been seen. Nothing is seen after the
whole input. -/
def advance? (code : Nat) : Option (Symbol Nat Nat × Nat) :=
  if b.accepts code then none else (b.next? code).map fun symbol => (symbol, code + 1)

end Blueprint

end CommandLang
