import CommandLang.Automaton.Saturation
import CommandLang.Grammar.Numbered

/-! What can stand at the start of a nonterminal and behind it. A nonterminal is nullable if it
derives the empty sequence. A token is in its first set if it can begin what the nonterminal
derives, and in its follow set if it can come next after it in some derivation. Each is found by
passes over the rules that put what a rule tells at once to use, until a pass tells nothing new. -/

namespace CommandLang

abbrev NumberedSymbols := List (Symbol Nat Nat)

/-- What is known of rules, by number: those that are decided, and those of them that derive the
empty sequence. -/
structure Verdicts where
  decided : IdSet
  erased : IdSet
deriving DecidableEq

namespace Verdicts

instance : EmptyCollection Verdicts := ⟨⟨∅, ∅⟩⟩

def record (known : Verdicts) (rule : Nat) (erased : Bool) : Verdicts :=
  ⟨known.decided.insert rule, if erased then known.erased.insert rule else known.erased⟩

/-- Whether a nonterminal with these rules derives the empty sequence, if that is known. One rule that
does is enough, but none does only if all are decided. -/
def ofRules (known : Verdicts) (rules : IdSet) : Option Bool :=
  if known.erased.inter rules ≠ ∅ then some true
  else if rules.diff known.decided = ∅ then some false
  else none

/-- Whether symbols derive the empty sequence, if that is known. It is not asked behind the first
symbol that does not, or of which it is not known. -/
def ofSymbols (known : Verdicts) (rulesOf : Array IdSet) : NumberedSymbols → Option Bool
  | [] => some true
  | .terminal _ :: _ => some false
  | .nonterminal a :: rest =>
    match known.ofRules (rulesOf[a]?.getD ∅) with
    | some true => known.ofSymbols rulesOf rest
    | verdict => verdict

def judge (rulesOf : Array IdSet) (known : Verdicts) (rule : NumberedSymbols × Nat) : Verdicts :=
  if rule.2 ∈ known.decided then known
  else match known.ofSymbols rulesOf rule.1 with
    | some erased => known.record rule.2 erased
    | none => known

end Verdicts

namespace IdSet

def extend (sets : Array IdSet) (place : Nat) (more : IdSet) : Array IdSet :=
  sets.modify place (· ∪ more)

end IdSet

/-- The tokens that can begin what symbols derive, as far as the sets tell. -/
def firstOf (nullable : IdSet) (first : Array IdSet) : NumberedSymbols → IdSet
  | [] => ∅
  | .terminal t :: _ => .ofList [t]
  | .nonterminal a :: rest =>
    let here := first[a]?.getD ∅
    if a ∈ nullable then here ∪ firstOf nullable first rest else here

/-- Adds what a rule tells about the first tokens of its left-hand side. -/
def visitFirst (nullable : IdSet) (first : Array IdSet) (rule : Rule) : Array IdSet :=
  IdSet.extend first rule.lhs (firstOf nullable first rule.rhs)

/-- Goes through symbols from the last to the first. Beside the follow sets it carries the tokens that
can come next: at the end those behind the symbols, then those at the start of the symbols passed. -/
def followFrom (nullable : IdSet) (first : Array IdSet) (follow : Array IdSet) (last : IdSet) :
    NumberedSymbols → Array IdSet × IdSet
  | [] => (follow, last)
  | .terminal t :: rest => ((followFrom nullable first follow last rest).1, .ofList [t])
  | .nonterminal a :: rest =>
    let passed := followFrom nullable first follow last rest
    let here := first[a]?.getD ∅
    (IdSet.extend passed.1 a passed.2, if a ∈ nullable then here ∪ passed.2 else here)

/-- Adds what a rule tells about the tokens behind the nonterminals in it. -/
def visitFollow (nullable : IdSet) (first : Array IdSet) (follow : Array IdSet) (rule : Rule) : Array IdSet :=
  (followFrom nullable first follow (follow[rule.lhs]?.getD ∅) rule.rhs).1

namespace Numbered

variable (g : Numbered)

def ruleList : List Rule := g.rules.toList

def rulesOf (a : Nat) : List Nat :=
  (g.ruleList.zipIdx.filter (·.1.lhs = a)).map Prod.snd

def ruleSets : Array IdSet := IdSet.table g.names.size fun a => .ofList (g.rulesOf a)

def nullableStep (rulesOf : Array IdSet) (known : Verdicts) : Verdicts :=
  (g.ruleList.map Rule.rhs).zipIdx.foldl (Verdicts.judge rulesOf) known

/-- What can be decided. Every pass but the last decides a rule. -/
def verdicts : Verdicts := saturate (g.nullableStep g.ruleSets) g.rules.size ∅

def nullable : IdSet :=
  let rulesOf := g.ruleSets
  let verdicts := g.verdicts
  .ofList ((List.range g.names.size).filter fun a => verdicts.ofRules (rulesOf[a]?.getD ∅) = some true)

def tokens : List Nat := g.ruleList.flatMap fun rule => rule.rhs.filterMap Symbol.terminal?

/-- Passes that add a token of the grammar to the set of a nonterminal, as long as there are any. -/
def passes (step : Array IdSet → Array IdSet) : Array IdSet :=
  saturate step (g.names.size * g.tokens.length) (Array.replicate g.names.size ∅)

def firstStep (nullable : IdSet) (first : Array IdSet) : Array IdSet :=
  g.ruleList.foldl (visitFirst nullable) first

def firstSets (nullable : IdSet) : Array IdSet := g.passes (g.firstStep nullable)

def followStep (nullable : IdSet) (first : Array IdSet) (follow : Array IdSet) : Array IdSet :=
  g.ruleList.foldl (visitFollow nullable first) follow

def followSets (nullable : IdSet) (first : Array IdSet) : Array IdSet := g.passes (g.followStep nullable first)

end Numbered

structure Lookahead where
  nullable : IdSet
  first : Array IdSet
  follow : Array IdSet

def Numbered.lookahead (g : Numbered) : Lookahead :=
  let nullable := g.nullable
  let first := g.firstSets nullable
  ⟨nullable, first, g.followSets nullable first⟩

/-- The sets of a nonterminal are kept as long as it keeps its name. The passes visit all rules, and they fail where the
left-hand side of one has no sets. -/
def Numbered.lookahead? (g : Numbered) : Option Lookahead :=
  if g.ruleList.all fun rule => g.keepsName rule.lhs then some g.lookahead else none

end CommandLang
