import CommandLang.Automaton.Item

/-! What a state does: where each symbol leads, and which rules are reduced on which tokens. A token
may ask for two things at once; then the state is of no use. -/

namespace CommandLang

/-- A rule that has been seen as a whole, with the tokens on which it is reduced. -/
structure Reduction where
  rule : Nat
  tokens : IdSet
deriving DecidableEq

def reducedOn (token : Nat) (reductions : List Reduction) : Option Nat :=
  (reductions.find? (token ∈ ·.tokens)).map (·.rule)

/-- The least token of the first reduction that has one in `seen` or of an earlier reduction, with
the rule that is reduced there. -/
def repeated (seen : IdSet) : List Reduction → Option (Nat × Nat)
  | [] => none
  | reduction :: rest =>
    match (reduction.tokens.inter seen).least? with
    | some token => some (token, reduction.rule)
    | none => repeated (seen ∪ reduction.tokens) rest

/-- A token on which two rules are reduced, with the first and the second of them. -/
def reduceReduce? (reductions : List Reduction) : Option (Nat × Nat × Nat) :=
  (repeated ∅ reductions).bind fun (token, second) =>
    (reducedOn token reductions).map fun first => (token, first, second)

structure Row where
  /-- The items in the order in which they were met. -/
  items : List Item
  reductions : List Reduction
  edges : List (Symbol Nat Nat × Nat)
deriving DecidableEq

namespace Row

variable (row : Row)

def shift? (token : Nat) : Option Nat := row.edges.lookup (.terminal token)

def goto? (a : Nat) : Option Nat := row.edges.lookup (.nonterminal a)

def reduce? (token : Nat) : Option Nat := reducedOn token row.reductions

def shifted : IdSet := .ofList (row.edges.filterMap (·.1.terminal?))

/-- A token that is shifted and on which a rule is reduced. -/
def shiftReduce? : Option (Nat × Nat) :=
  let shifted := row.shifted
  row.reductions.findSome? fun reduction =>
    (reduction.tokens.inter shifted).least?.map fun token => (token, reduction.rule)

def hasAction : Bool := row.shifted ≠ ∅ || row.reductions.any (·.tokens ≠ ∅)

end Row

end CommandLang
